/-
  Index entries (`storage/lib.rs`): the directed keys of an index's fields joined by
  `00 00`, NUL-escaped, closed by `00 00` and followed by the record id.

  * `packEntry_order_iff`: entries are in the lexicographic order of the fields, each in its
    direction, and then of the record ids, exactly when no field comes to MinKey against
    `undefined` as in `SortKey.compare_encodeValue_iff`;
  * `unpackEntry_packEntry`, `unescapeKb_escapeKb`: an entry gives its key and its record id
    back.

  Index keys taken apart (sortkey.rs, `split_directed`, `split_compound`, `ascending_part`).

  * `splitDirected_iff`: a joined key splits into exactly its parts exactly when every value's key says
    where it ends;
  * `splitCompound_eq`: over ascending fields the two ways to split are one;
  * `ascendingPart_directed`: a part gives back the key it was made of.
-/
import Secantus.SortKey.OrderPreserving
import Secantus.SortKey.Split

namespace Secantus.Index

open Secantus Bson BsonOrder SortKey ByteOrder

/-! ## The entry format -/

/-- `ENTRY_SEP`. -/
def entrySep : Bytes := [0x00, 0x00]

def escapeKb (kb : Bytes) : Bytes := ByteOrder.escape 0x00 0xFF kb

def unescapeKb (esc : Bytes) : Bytes := ByteOrder.unescape 0x00 0xFF esc

/-- `i64::to_be_bytes`: two's complement, big-endian. -/
def i64ToBeBytes (n : Int64) : Bytes := beBytes 8 n.toUInt64.toNat

/-- `i64::from_be_bytes`. -/
def i64FromBeBytes (b : Bytes) : Int64 := (UInt64.ofNat (ofBeBytes b)).toInt64

def packEntry (kb : Bytes) (recordid : Int64) : Bytes :=
  escapeKb kb ++ entrySep ++ i64ToBeBytes recordid

/-- `unpack_entry`: split at the first separator; a tail that is not eight bytes has no
    record id. -/
def unpackEntry (packed : Bytes) : Bytes × Option Int64 :=
  match ByteOrder.sepPos 0x00 packed with
  | some i =>
    let tail := packed.drop (i + 2)
    (packed.take i, if tail.length = 8 then some (i64FromBeBytes tail) else none)
  | none => (packed, none)

def compoundJoin : List Bytes → Bytes
  | [] => []
  | [p] => p
  | p :: q :: ps => p ++ compoundSep ++ compoundJoin (q :: ps)

/-- The directed keys of a tuple of values. -/
def directedKeys (o : BinDataOrder) : List Direction → List Bson →
    Except UnsupportedValue (List Bytes)
  | d :: ds, v :: vs => do
    let k ← encodeValueDirected o v d
    let ks ← directedKeys o ds vs
    .ok (k :: ks)
  | _, _ => .ok []

/-- The joined key of a tuple of values. -/
def indexKey (o : BinDataOrder) (dirs : List Direction) (vs : List Bson) :
    Except UnsupportedValue Bytes := do
  let ks ← directedKeys o dirs vs
  .ok (compoundJoin ks)

/-! ## The order of tuples -/

/-- An ordering read in a field's direction. -/
def inDirection : Direction → Ordering → Ordering
  | .ascending, r => r
  | .descending, r => r.swap

/-- The lexicographic order of tuples, field by field in its direction. -/
def tupleCmpBy (rank : Bson → UInt8) (o : BinDataOrder) :
    List Direction → List Bson → List Bson → Ordering
  | d :: ds, a :: as, b :: bs =>
    (inDirection d (cmpBy rank o a b)).then (tupleCmpBy rank o ds as bs)
  | _, _, _ => .eq

/-- Tuples by `order::cmp`. -/
def tupleCmp (o : BinDataOrder) (dirs : List Direction) (as bs : List Bson) : Ordering :=
  tupleCmpBy typeRank o dirs as bs

theorem inDirection_eq_iff (d : Direction) (r : Ordering) : inDirection d r = .eq ↔ r = .eq := by
  cases d with
  | ascending => rfl
  | descending => exact Ordering.swap_eq_eq

/-! ## Directed keys -/

theorem toNat_xor_ff (x : UInt8) : (x ^^^ 0xFF).toNat = 255 - x.toNat := by
  have hfin : ∀ n : Fin 256, (UInt8.ofNat n ^^^ 0xFF).toNat = 255 - n := by
    decide +kernel
  have hx := hfin ⟨x.toNat, x.toNat_lt⟩
  simpa using hx

theorem compare_xor_ff (a b : UInt8) : compare (a ^^^ 0xFF) (b ^^^ 0xFF) = (compare a b).swap := by
  have ha := a.toNat_lt
  have hb := b.toNat_lt
  rw [compare_toNat, compare_toNat a, toNat_xor_ff, toNat_xor_ff]
  rcases lt_trichotomy a.toNat b.toNat with h | h | h
  · rw [compare_lt_iff_lt.mpr h, Ordering.swap_lt, compare_gt_iff_gt]
    omega
  · rw [h, compare_eq_iff_eq.mpr rfl, compare_eq_iff_eq.mpr rfl, Ordering.swap_eq]
  · rw [compare_gt_iff_gt.mpr h, Ordering.swap_gt, compare_lt_iff_lt]
    omega

/-- Inverting a key and closing it is inverting the closed key. -/
theorem settled_descending {r : Ordering} {x y : Bytes} (h : Open 0 r x y) :
    Settled r.swap (directed x .descending) (directed y .descending) := by
  have h1 := h.settled.map (g := Ordering.swap) (f := (· ^^^ 0xFF)) (fun _ => Ordering.swap_eq_eq)
    (fun a _ b _ => compare_xor_ff a b)
  rw [List.map_append, List.map_append] at h1
  exact h1

theorem open_directed {r : Ordering} {x y : Bytes} (d : Direction) (h : Open 0 r x y) :
    Open 0 (inDirection d r) (directed x d) (directed y d) := by
  cases d with
  | ascending => exact h
  | descending => exact (settled_descending h).toOpen 0

/-! ## Joined keys -/

/-- The directed keys of a nonempty tuple, taken apart. -/
theorem directedKeys_cons {o : BinDataOrder} {d : Direction} {ds : List Direction} {v : Bson}
    {vs : List Bson} {ks : List Bytes} (h : directedKeys o (d :: ds) (v :: vs) = .ok ks) :
    ∃ k ks', encodeValue o v = .ok k ∧ directedKeys o ds vs = .ok ks' ∧
      ks = directed k d :: ks' := by
  unfold directedKeys at h
  obtain ⟨dk, hdk, h⟩ := Outcome.bind_eq_ok.mp h
  obtain ⟨ks', hks, h⟩ := Outcome.bind_eq_ok.mp h
  unfold encodeValueDirected at hdk
  obtain ⟨k, hk, hdk⟩ := Outcome.bind_eq_ok.mp hdk
  exact ⟨k, ks', hk, hks, by rw [← Except.ok.inj h, Except.ok.inj hdk]⟩

theorem directedKeys_length {o : BinDataOrder} : ∀ {ds : List Direction} {vs : List Bson}
    {ks : List Bytes}, vs.length = ds.length → directedKeys o ds vs = .ok ks →
    ks.length = ds.length
  | [], [], ks, _, h => by
    rw [← Except.ok.inj h]
    rfl
  | d :: ds, v :: vs, ks, hl, h => by
    obtain ⟨k, ks', -, hks, rfl⟩ := directedKeys_cons h
    rw [List.length_cons, List.length_cons, directedKeys_length (Nat.succ.inj hl) hks]

theorem compoundJoin_cons {p : Bytes} {ps : List Bytes} (h : ps ≠ []) :
    compoundJoin (p :: ps) = p ++ compoundSep ++ compoundJoin ps := by
  cases ps with
  | nil => exact absurd rfl h
  | cons q ps => rfl

/-- Joined keys are in tuple order by the stored rank. -/
theorem open_compoundJoin {o : BinDataOrder} (ho : o ≠ .format4) : ∀ {ds : List Direction}
    {as bs : List Bson} {ka kb : List Bytes}, as.length = ds.length → bs.length = ds.length →
    directedKeys o ds as = .ok ka → directedKeys o ds bs = .ok kb →
    reachesArray valueClash noElement o as bs = false →
    Open 0 (tupleCmpBy keyRank o ds as bs) (compoundJoin ka) (compoundJoin kb)
  | [], [], [], ka, kb, _, _, ha, hb, _ => by
    rw [← Except.ok.inj ha, ← Except.ok.inj hb]
    exact open_refl _
  | d :: ds, a :: as, b :: bs, ka, kb, hla, hlb, ha, hb, hclash => by
    obtain ⟨x, ka', hx, hka, rfl⟩ := directedKeys_cons ha
    obtain ⟨y, kb', hy, hkb, rfl⟩ := directedKeys_cons hb
    obtain ⟨hhead, htail⟩ := reachesArray_cons hclash
    have hla' := Nat.succ.inj hla
    have hlb' := Nat.succ.inj hlb
    have hlka := directedKeys_length hla' hka
    have hlkb := directedKeys_length hlb' hkb
    have hopen := open_directed d (open_encodeValue ho hx hy hhead)
    unfold tupleCmpBy
    cases ds with
    | nil =>
      obtain rfl := List.length_eq_zero_iff.mp hlka
      obtain rfl := List.length_eq_zero_iff.mp hlkb
      obtain rfl := List.length_eq_zero_iff.mp hla'
      obtain rfl := List.length_eq_zero_iff.mp hlb'
      simpa [tupleCmpBy, compoundJoin] using hopen
    | cons d' ds =>
      have hna : ka' ≠ [] := by
        rintro rfl
        simp at hlka
      have hnb : kb' ≠ [] := by
        rintro rfl
        simp at hlkb
      rw [compoundJoin_cons hna, compoundJoin_cons hnb]
      by_cases hc : cmpBy keyRank o a b = .eq
      · have hcmp := (pairStep_eq keyRank o).values a b hc
        exact hopen.settled.appendOpen
          (open_compoundJoin ho hla' hlb' hka hkb (htail hcmp))
      · have hne : inDirection d (cmpBy keyRank o a b) ≠ .eq := fun h =>
          hc ((inDirection_eq_iff d _).mp h)
        rw [then_of_ne hne]
        exact (hopen.settled.extend hne _ _).toOpen 0

/-! ## Packed entries -/

theorem toNat_of_nonneg {n : Int64} (hn : 0 ≤ n.toInt) : (n.toUInt64.toNat : ℤ) = n.toInt := by
  have h1 : n.toInt = n.toBitVec.toInt := rfl
  have h2 : n.toUInt64.toNat = n.toBitVec.toNat := rfl
  have h3 := n.toBitVec.isLt
  rw [BitVec.toInt_eq_toNat_cond] at h1
  split at h1 <;> omega

theorem settled_recordid {x y : Int64} (hx : 0 ≤ x.toInt) (hy : 0 ≤ y.toInt) :
    Settled (compare x.toInt y.toInt) (i64ToBeBytes x) (i64ToBeBytes y) := by
  have hx' := toNat_of_nonneg hx
  have hy' := toNat_of_nonneg hy
  have hc : compare x.toUInt64.toNat y.toUInt64.toNat = compare x.toInt y.toInt := by
    rcases lt_trichotomy x.toInt y.toInt with h | h | h
    · rw [compare_lt_iff_lt.mpr h, compare_lt_iff_lt]
      omega
    · rw [compare_eq_iff_eq.mpr h, compare_eq_iff_eq]
      omega
    · rw [compare_gt_iff_gt.mpr h, compare_gt_iff_gt]
      omega
  rw [← hc]
  exact settled_beBytes x.toUInt64.toNat_lt y.toUInt64.toNat_lt

/-- Entries compare by key, then by record id. -/
theorem compare_packEntry {ka kb : Bytes} {ra rb : Int64} (hra : 0 ≤ ra.toInt)
    (hrb : 0 ≤ rb.toInt) :
    compare (packEntry ka ra) (packEntry kb rb) =
      (compare ka kb).then (compare ra.toInt rb.toInt) := by
  have h := (settled_closed (o := compare ka kb) rfl).append (settled_recordid hra hrb)
  exact h.compare_eq

theorem unpackEntry_packEntry (kb : Bytes) (recordid : Int64) :
    unpackEntry (packEntry kb recordid) = (escapeKb kb, some recordid) := by
  have hpos : ByteOrder.sepPos 0x00 (packEntry kb recordid) = some (escapeKb kb).length := by
    have h := sepPos_escape (z := (0x00 : UInt8)) (e := 0xFF) (by decide) kb
      (i64ToBeBytes recordid)
    unfold packEntry entrySep escapeKb
    rw [List.append_assoc]
    exact h
  have htake : (packEntry kb recordid).take (escapeKb kb).length = escapeKb kb := by
    unfold packEntry
    rw [List.append_assoc, List.take_left]
  have hdrop : (packEntry kb recordid).drop ((escapeKb kb).length + 2) = i64ToBeBytes recordid := by
    have hlen : (escapeKb kb).length + 2 = (escapeKb kb ++ entrySep).length := by
      rw [List.length_append]
      rfl
    unfold packEntry
    rw [hlen, List.drop_left]
  have hid : i64FromBeBytes (i64ToBeBytes recordid) = recordid := by
    unfold i64FromBeBytes i64ToBeBytes
    rw [ofBeBytes_beBytes recordid.toUInt64.toNat_lt, UInt64.ofNat_toNat,
      Int64.toInt64_toUInt64]
  unfold unpackEntry
  rw [hpos]
  simp only [htake, hdrop]
  rw [if_pos (by simp [i64ToBeBytes]), hid]

theorem unescapeKb_escapeKb (kb : Bytes) : unescapeKb (escapeKb kb) = kb :=
  unescape_escape 0x00 0xFF kb

/-! ## Entry order -/

theorem Agrees.inDirection {c : Bool} {x y : Ordering} (d : Direction) (h : Agrees c x y) :
    Agrees c (inDirection d x) (inDirection d y) := by
  cases d with
  | ascending => exact h
  | descending =>
    refine ⟨fun hc => by rw [h.1 hc], fun hc => ?_⟩
    obtain ⟨hx, hy⟩ := h.2 hc
    refine ⟨by rw [hx]; rfl, ?_⟩
    simpa [Index.inDirection] using hy

/-- Tuples by the stored rank: `tupleCmp`, or its reverse when a field clashes. -/
theorem agrees_tuple {o : BinDataOrder} (ho : o ≠ .format4) : ∀ {ds : List Direction}
    {as bs : List Bson} {ka kb : List Bytes}, as.length = ds.length → bs.length = ds.length →
    directedKeys o ds as = .ok ka → directedKeys o ds bs = .ok kb →
    Agrees (reachesArray noValue rankClash o as bs) (tupleCmpBy keyRank o ds as bs)
      (tupleCmp o ds as bs)
  | [], [], [], _, _, _, _, _, _ => Agrees.refl _
  | d :: ds, a :: as, b :: bs, ka, kb, hla, hlb, ha, hb => by
    obtain ⟨x, ka', hx, hka, rfl⟩ := directedKeys_cons ha
    obtain ⟨y, kb', hy, hkb, rfl⟩ := directedKeys_cons hb
    have hhead := Agrees.inDirection d (agrees_encodeValue ho hx hy)
    have htail := agrees_tuple ho (Nat.succ.inj hla) (Nat.succ.inj hlb) hka hkb
    have h := hhead.then fun _ => htail
    rw [decide_eq_decide.mpr (inDirection_eq_iff d _)] at h
    unfold reachesArray
    exact h

/-- Entries are in the order of the fields, then of the record ids, exactly when the fields
    come to no MinKey against `undefined` with the larger name on MinKey; and every entry
    gives its key and record id back. -/
theorem packEntry_order_iff {o : BinDataOrder} (ho : o ≠ .format4) {dirs : List Direction}
    {as bs : List Bson} (hla : as.length = dirs.length) (hlb : bs.length = dirs.length)
    {ka kb : Bytes} (ha : indexKey o dirs as = .ok ka) (hb : indexKey o dirs bs = .ok kb)
    {ra rb : Int64} (hra : 0 ≤ ra.toInt) (hrb : 0 ≤ rb.toInt)
    (hclash : reachesArray valueClash noElement o as bs = false) :
    (compare (packEntry ka ra) (packEntry kb rb) =
        (tupleCmp o dirs as bs).then (compare ra.toInt rb.toInt) ↔
      reachesArray noValue rankClash o as bs = false) ∧
    unpackEntry (packEntry ka ra) = (escapeKb ka, some ra) ∧ unescapeKb (escapeKb ka) = ka := by
  refine ⟨?_, unpackEntry_packEntry ka ra, unescapeKb_escapeKb ka⟩
  obtain ⟨pa, hpa, hka⟩ := Outcome.bind_eq_ok.mp ha
  obtain ⟨pb, hpb, hkb⟩ := Outcome.bind_eq_ok.mp hb
  obtain rfl := Except.ok.inj hka
  obtain rfl := Except.ok.inj hkb
  rw [compare_packEntry hra hrb, (open_compoundJoin ho hla hlb hpa hpb hclash).compare_eq]
  obtain ⟨hagree, hreverse⟩ := agrees_tuple ho hla hlb hpa hpb
  cases hr : reachesArray noValue rankClash o as bs with
  | false => exact ⟨fun _ => rfl, fun _ => by rw [hagree hr]⟩
  | true =>
    obtain ⟨hswap, hne⟩ := hreverse hr
    refine ⟨fun h => ?_, nofun⟩
    have hne' : tupleCmpBy keyRank o dirs as bs ≠ .eq := by
      rw [hswap]
      simpa using hne
    rw [then_of_ne hne', then_of_ne hne, hswap] at h
    cases hc : tupleCmp o dirs as bs with
    | eq => exact absurd hc hne
    | lt =>
      rw [hc] at h
      cases h
    | gt =>
      rw [hc] at h
      cases h

/-- Two fields, the second descending, where one string begins the other. -/
theorem packEntry_order_prefix :
    let dirs := [Direction.ascending, .descending]
    let as : List Bson := [.int32 7, .string "a"]
    let bs : List Bson := [.int32 7, .string "ab"]
    let ka : Bytes := [3, 193, 128, 0, 71, 0, 0, 0, 251, 158, 255, 255]
    let kb : Bytes := [3, 193, 128, 0, 71, 0, 0, 0, 251, 158, 157, 255, 255]
    ((compare (packEntry ka 1) (packEntry kb 2) =
          (tupleCmp .mongod dirs as bs).then (compare (Int64.toInt 1) (Int64.toInt 2)) ↔
        reachesArray noValue rankClash .mongod as bs = false) ∧
      unpackEntry (packEntry ka 1) = (escapeKb ka, some 1) ∧ unescapeKb (escapeKb ka) = ka) ∧
    tupleCmp .mongod dirs as bs = .gt :=
  ⟨packEntry_order_iff (by decide) rfl rfl (by rfl) (by rfl) (by decide) (by decide) (by decide),
    by decide⟩

/-- `{b: MinKey}` and `{a: undefined}` in an ascending index: the entries are reversed. -/
theorem packEntry_minKey_above_undefined :
    let as : List Bson := [.document [("b", .minKey)]]
    let bs : List Bson := [.document [("a", .undefined)]]
    ∃ ka kb, indexKey .mongod [.ascending] as = .ok ka ∧
      indexKey .mongod [.ascending] bs = .ok kb ∧
      compare (packEntry ka 1) (packEntry kb 1) = .gt ∧
      tupleCmp .mongod [.ascending] as bs = .lt :=
  ⟨[5, 1, 98, 0, 0, 0, 0, 0], [5, 1, 97, 0, 0, 128, 0, 0, 0], by rfl, by rfl, by decide, by decide⟩

/-! ## One part -/

theorem invertBytes_invertBytes (x : Bytes) : invertBytes (invertBytes x) = x := by
  have hxor : ∀ b : UInt8, b ^^^ 0xFF ^^^ 0xFF = b := by
    intro b
    rw [UInt8.xor_assoc, UInt8.xor_self, UInt8.xor_zero]
  unfold invertBytes
  rw [List.map_map]
  exact (List.map_congr_left fun b _ => hxor b).trans (List.map_id x)

theorem length_invertBytes (x : Bytes) : (invertBytes x).length = x.length := List.length_map _

theorem ascendingPart_directed (k : Bytes) (d : Direction) : ascendingPart (directed k d) d = k := by
  cases d with
  | ascending => rfl
  | descending =>
    have hsuffix : descEnd.isSuffixOf (invertBytes k ++ descEnd) = true :=
      List.isSuffixOf_iff_suffix.mpr (List.suffix_append _ _)
    show invertBytes (if descEnd.isSuffixOf (invertBytes k ++ descEnd) then
      (invertBytes k ++ descEnd).take ((invertBytes k ++ descEnd).length - descEnd.length)
      else invertBytes k ++ descEnd) = k
    rw [if_pos hsuffix, List.length_append, Nat.add_sub_cancel, List.take_left, invertBytes_invertBytes]

theorem valueLen_le {key : Bytes} {n : ℕ} (h : valueLen key = some n) : n ≤ key.length := by
  cases key with
  | nil => cases h
  | cons rank body =>
    obtain ⟨len, -, h⟩ := Option.bind_eq_some_iff.mp h
    split at h
    · obtain rfl := Option.some.inj h
      rw [List.length_cons]
      omega
    · cases h

theorem directedLen_le {key : Bytes} {d : Direction} {n : ℕ} (h : directedLen key d = some n) :
    n ≤ key.length := by
  cases d with
  | ascending => exact valueLen_le h
  | descending =>
    obtain ⟨m, -, h⟩ := Option.bind_eq_some_iff.mp h
    split at h
    · rename_i hend
      obtain rfl := Option.some.inj h
      have hlen := congrArg List.length hend
      rw [List.length_take, List.length_drop] at hlen
      have h2 : descEnd.length = 2 := rfl
      omega
    · cases h

/-- A part is read at its own length exactly when its value's key says where it ends. -/
theorem directedLen_iff {o : BinDataOrder} {v : Bson} {k : Bytes} (h : encodeValue o v = .ok k)
    (d : Direction) {tail : Bytes} (ht : Closes tail) :
    directedLen (directed k d ++ tail) d = some (directed k d).length ↔ SelfDelimiting o v := by
  cases d with
  | ascending => exact valueLen_encodeValue h ht
  | descending =>
    have hinv : invertBytes (invertBytes k ++ descEnd ++ tail) = k ++ (compoundSep ++ invertBytes tail) := by
      have happ : ∀ x y, invertBytes (x ++ y) = invertBytes x ++ invertBytes y := fun _ _ => List.map_append
      rw [happ, happ, invertBytes_invertBytes, List.append_assoc]
      rfl
    have hread : directedLen (directed k .descending ++ tail) .descending =
        (valueLen (invertBytes (invertBytes k ++ descEnd ++ tail))).bind fun n =>
          if ((invertBytes k ++ descEnd ++ tail).drop n).take 2 = descEnd then some (n + 2) else none := rfl
    have hlen : (directed k .descending).length = k.length + 2 := by
      show (invertBytes k ++ descEnd).length = _
      rw [List.length_append, length_invertBytes]
      rfl
    rw [hread, hinv, hlen,
      ← valueLen_encodeValue h (Or.inr ⟨invertBytes tail, rfl⟩ : Closes (compoundSep ++ invertBytes tail)),
      Option.bind_eq_some_iff]
    constructor
    · rintro ⟨n, hn, hend⟩
      split at hend
      · have hn2 := Option.some.inj hend
        rw [hn, Option.some.injEq]
        omega
      · cases hend
    · intro hn
      refine ⟨_, hn, ?_⟩
      rw [List.append_assoc, List.drop_left' (length_invertBytes k)]
      exact if_pos rfl

/-! ## Joined keys -/

theorem splitDirected_step (key : Bytes) (d : Direction) (ds : List Direction) :
    splitDirected key (d :: ds) = (directedLen key d).bind fun n =>
      (if ds.isEmpty then some (key.drop n) else stripSep (key.drop n)).bind fun behind =>
        (splitDirected behind ds).bind fun parts => some (key.take n :: parts) := by
  rw [splitDirected]
  by_cases hds : ds.isEmpty = true
  · simp only [hds, if_true]
    rfl
  · simp only [hds]
    rfl

theorem splitDirected_cons {p tail : Bytes} {d : Direction} {ds : List Direction} {ps : List Bytes} :
    splitDirected (p ++ tail) (d :: ds) = some (p :: ps) ↔
      directedLen (p ++ tail) d = some p.length ∧
        ∃ behind, (if ds.isEmpty then some tail else stripSep tail) = some behind ∧
          splitDirected behind ds = some ps := by
  rw [splitDirected_step]
  simp only [Option.bind_eq_some_iff, Option.some.injEq, List.cons.injEq]
  constructor
  · rintro ⟨n, hn, behind, hbehind, qs, hqs, htake, rfl⟩
    have hle := directedLen_le hn
    have hlen := congrArg List.length htake
    rw [List.length_take] at hlen
    obtain rfl : n = p.length := by omega
    rw [List.drop_left] at hbehind
    exact ⟨hn, behind, hbehind, hqs⟩
  · rintro ⟨hn, behind, hbehind, hps⟩
    refine ⟨p.length, hn, behind, ?_, ps, hps, List.take_left, rfl⟩
    rw [List.drop_left]
    exact hbehind

theorem splitDirected_iff {o : BinDataOrder} : ∀ {ds : List Direction} {vs : List Bson} {parts : List Bytes},
    vs.length = ds.length → directedKeys o ds vs = .ok parts →
    (splitDirected (compoundJoin parts) ds = some parts ↔ ∀ v ∈ vs, SelfDelimiting o v)
  | [], [], parts, _, h => by
    obtain rfl := Except.ok.inj h
    exact iff_of_true rfl nofun
  | d :: ds, v :: vs, parts, hl, h => by
    obtain ⟨k, ps, hk, hps, rfl⟩ := directedKeys_cons h
    have hl := Nat.succ.inj hl
    have hlen := directedKeys_length hl hps
    have ih := splitDirected_iff hl hps
    rw [List.forall_mem_cons, ← ih]
    cases ds with
    | nil =>
      obtain rfl := List.length_eq_zero_iff.mp hlen
      have hjoin : compoundJoin [directed k d] = directed k d ++ [] := (List.append_nil _).symm
      rw [hjoin, splitDirected_cons, directedLen_iff hk d (.inl rfl)]
      refine and_congr_right fun _ => ⟨fun _ => rfl, fun _ => ⟨[], rfl, rfl⟩⟩
    | cons d' ds =>
      have hne : ps ≠ [] := by
        rintro rfl
        cases hlen
      rw [compoundJoin_cons hne, List.append_assoc, splitDirected_cons,
        directedLen_iff hk d (.inr ⟨compoundJoin ps, rfl⟩ : Closes (compoundSep ++ compoundJoin ps))]
      refine and_congr_right fun _ => ⟨?_, fun hsplit => ⟨_, rfl, hsplit⟩⟩
      rintro ⟨behind, hbehind, hsplit⟩
      obtain rfl : compoundJoin ps = behind := Option.some.inj hbehind
      exact hsplit

theorem splitCompound_eq {ds : List Direction} (h : ∀ d ∈ ds, d = .ascending) (key : Bytes) :
    splitCompound key ds.length = splitDirected key ds := by
  induction ds generalizing key with
  | nil => rfl
  | cons d ds ih =>
    obtain rfl := h d List.mem_cons_self
    have ih := ih fun d hd => h d (List.mem_cons_of_mem _ hd)
    have hempty : (ds.length = 0) = (ds.isEmpty = true) := by
      rw [List.length_eq_zero_iff, List.isEmpty_iff]
    rw [List.length_cons, splitCompound, splitDirected_step]
    simp only [hempty, ih]
    by_cases hds : ds.isEmpty = true
    · simp only [hds, if_true]
      rfl
    · simp only [hds]
      rfl

theorem ascendingPart_directedKeys {o : BinDataOrder} : ∀ {ds : List Direction} {vs : List Bson}
    {parts : List Bytes}, vs.length = ds.length → directedKeys o ds vs = .ok parts →
    vs.map (encodeValue o) = (List.zipWith ascendingPart parts ds).map .ok
  | [], [], parts, _, h => by
    obtain rfl := Except.ok.inj h
    rfl
  | d :: ds, v :: vs, parts, hl, h => by
    obtain ⟨k, ps, hk, hps, rfl⟩ := directedKeys_cons h
    rw [List.map_cons, List.zipWith_cons_cons, List.map_cons, hk, ascendingPart_directed,
      ascendingPart_directedKeys (Nat.succ.inj hl) hps]

/-- Splitting undoes joining exactly when every value's key says where it ends. -/
theorem split_join_iff {o : BinDataOrder} {ds : List Direction} {vs : List Bson} {parts : List Bytes}
    (hl : vs.length = ds.length) (h : directedKeys o ds vs = .ok parts) :
    (splitDirected (compoundJoin parts) ds = some parts ∧
      ((∀ d ∈ ds, d = .ascending) → splitCompound (compoundJoin parts) ds.length = some parts) ∧
      vs.map (encodeValue o) = (List.zipWith ascendingPart parts ds).map .ok) ↔
      ∀ v ∈ vs, SelfDelimiting o v := by
  rw [← splitDirected_iff hl h]
  refine ⟨fun hsplit => hsplit.1, fun hsplit => ⟨hsplit, fun hasc => ?_, ascendingPart_directedKeys hl h⟩⟩
  rw [splitCompound_eq hasc, hsplit]

theorem split_join_null_true :
    splitDirected (compoundJoin [[2], [0xF6, 0xFE, 0xFF, 0xFF]]) [.ascending, .descending] =
      some [[2], [0xF6, 0xFE, 0xFF, 0xFF]] := by
  have hkeys : directedKeys .mongod [.ascending, .descending] [.null, .boolean true] =
      .ok [[2], [0xF6, 0xFE, 0xFF, 0xFF]] := rfl
  have hvalues : ∀ v ∈ [Bson.null, Bson.boolean true], SelfDelimiting .mongod v :=
    List.forall_mem_cons.mpr ⟨trivial, List.forall_mem_cons.mpr ⟨trivial, nofun⟩⟩
  exact ((split_join_iff rfl hkeys).mpr hvalues).1

/-- A regex whose pattern is not UTF-8 is keyed by its bytes, without the separator it is read with. -/
theorem splitDirected_raw_regex :
    directedKeys .mongod [.ascending] [rawText .regex ⟨0, [0xFF, 0, 0], by decide⟩] =
        .ok [[0x0C, 0xFF, 0, 0xFF, 0, 0xFF]] ∧
      splitDirected (compoundJoin [[0x0C, 0xFF, 0, 0xFF, 0, 0xFF]]) [.ascending] = none := by
  constructor
  · rfl
  · decide

end Secantus.Index
