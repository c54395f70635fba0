/-
  Stretches as spans of the stored entries (scan_bounds.rs, `to_spans`).

  The spans are in order and lie apart, whatever the stretches. Ascending they hold the stored key of exactly
  the keys the stretches hold. A descending field stores a key inverted and closed, so that a key end no longer
  takes the keys that extend it: there the spans hold the keys between the ends, both included.
-/
import Secantus.ScanBounds.Stretch

namespace Secantus.ScanBounds

open Secantus Bson BsonOrder SortKey ByteOrder Spans

/-! ## The spans -/

/-- The stored edge of a rank. -/
def floorBytes (dir : Direction) (r : UInt8) : Key :=
  match dir with
  | .ascending => ⟨[r]⟩
  | .descending => ⟨[0xFF - r + 1]⟩

/-- The stored bytes of a key, in the entry's escaping. -/
def keyBytes (escape : Bytes → Bytes) (dir : Direction) (k : Key) : Key := ⟨escape (directed k.bytes dir)⟩

def lowEnd (escape : Bytes → Bytes) (dir : Direction) : End → Key
  | .floor r => floorBytes dir r
  | .key k => keyBytes escape dir k

def highEnd (escape : Bytes → Bytes) (dir : Direction) : End → Key
  | .floor r => floorBytes dir r
  | .key k => ⟨(keyBytes escape dir k).bytes ++ [0xFF]⟩

/-- One stretch as stored; a descending field turns it round. -/
def spanOf (escape : Bytes → Bytes) (dir : Direction) (s : Stretch) : Span Key :=
  match dir with
  | .ascending => ⟨s.lo.map (lowEnd escape dir), s.hi.map (highEnd escape dir)⟩
  | .descending => ⟨s.hi.map (lowEnd escape dir), s.lo.map (highEnd escape dir)⟩

def toSpans (escape : Bytes → Bytes) (dir : Direction) (stretches : List Stretch) : List (Span Key) :=
  merge (((stretches.map (spanOf escape dir)).filter Span.proper).mergeSort Span.startsBy)

/-- The entry escaping, or none for raw keys. -/
def IsEscape (escape : Bytes → Bytes) : Prop := escape = Index.escapeKb ∨ escape = id

theorem sorted_spans (spans : List (Span Key)) : Sorted (spans.mergeSort Span.startsBy) :=
  @List.pairwise_mergeSort _ Span.startsBy (fun _ _ _ => Span.startsBy_trans)
    (fun s t => Bool.or_eq_true_iff.mpr (Span.startsBy_total s t)) spans

theorem apart_toSpans (escape : Bytes → Bytes) (dir : Direction) (stretches : List Stretch) :
    (toSpans escape dir stretches).Pairwise fun s t => s.startsBy t = true ∧ s.Apart t :=
  apart_merge (sorted_spans _)

theorem holds_toSpans (escape : Bytes → Bytes) (dir : Direction) (stretches : List Stretch) (x : Key) :
    (∃ s ∈ toSpans escape dir stretches, s.Holds x) ↔ ∃ s ∈ stretches, (spanOf escape dir s).Holds x := by
  unfold toSpans
  rw [holds_merge (sorted_spans _)]
  simp only [List.mem_mergeSort, List.mem_filter, List.mem_map]
  constructor
  · rintro ⟨_, ⟨⟨s, hs, rfl⟩, -⟩, hx⟩
    exact ⟨s, hs, hx⟩
  · rintro ⟨s, hs, hx⟩
    refine ⟨_, ⟨⟨s, hs, rfl⟩, ?_⟩, hx⟩
    by_contra himproper
    exact Span.not_holds_of_improper (Bool.eq_false_iff.mpr himproper) x hx

/-! ## Ends in stored order -/

theorem floor_le_iff (r : UInt8) (x : Bytes) : Key.mk [r] ≤ Key.mk x ↔ ∃ b, x.head? = some b ∧ r ≤ b := by
  rw [← not_lt]
  cases x with
  | nil => exact iff_of_false (fun h => h rfl) fun ⟨_, h, _⟩ => nomatch h
  | cons b x =>
    rw [Key.cons_lt_cons_iff, or_iff_left fun h => Key.not_lt_nil _ h.2, UInt8.not_lt]
    exact ⟨fun h => ⟨b, rfl, h⟩, fun ⟨c, hc, h⟩ => Option.some.inj hc ▸ h⟩

theorem head?_escape {escape : Bytes → Bytes} (h : IsEscape escape) (x : Bytes) : (escape x).head? = x.head? := by
  rcases h with rfl | rfl
  · cases x with
    | nil => rfl
    | cons b x =>
      show (ByteOrder.escape 0x00 0xFF (b :: x)).head? = some b
      unfold ByteOrder.escape
      split <;> rfl
  · rfl

theorem compare_escape {escape : Bytes → Bytes} (h : IsEscape escape) (x y : Bytes) :
    compare (escape x) (escape y) = compare x y := by
  rcases h with rfl | rfl
  · exact (SortKey.open_escape x y).compare_eq
  · rfl

theorem escape_append_ff {escape : Bytes → Bytes} (h : IsEscape escape) (x : Bytes) :
    escape x ++ [0xFF] = escape (x ++ [0xFF]) := by
  rcases h with rfl | rfl
  · exact (ByteOrder.escape_append 0x00 0xFF x [0xFF]).symm
  · rfl

theorem escape_lt_iff {escape : Bytes → Bytes} (h : IsEscape escape) (x y : Bytes) :
    Key.mk (escape x) < Key.mk (escape y) ↔ Key.mk x < Key.mk y := by
  rw [Key.lt_iff, Key.lt_iff, compare_escape h]

theorem escape_le_iff {escape : Bytes → Bytes} (h : IsEscape escape) (x y : Bytes) :
    Key.mk (escape x) ≤ Key.mk (escape y) ↔ Key.mk x ≤ Key.mk y := by
  rw [← not_lt, ← not_lt, escape_lt_iff h]

theorem floor_le_escape_iff {escape : Bytes → Bytes} (h : IsEscape escape) (r : UInt8) (x : Bytes) :
    Key.mk [r] ≤ Key.mk (escape x) ↔ Key.mk [r] ≤ Key.mk x := by
  rw [floor_le_iff, floor_le_iff, head?_escape h]

/-- Ascending, a span holds the stored key of exactly the keys its stretch holds. -/
theorem holds_spanOf_ascending {escape : Bytes → Bytes} (h : IsEscape escape) (s : Stretch) (k : Key) :
    (spanOf escape .ascending s).Holds (keyBytes escape .ascending k) ↔ s.Holds k := by
  have hlo : ∀ e : End, lowEnd escape .ascending e ≤ keyBytes escape .ascending k ↔
      (Stretch.mk (some e) none).loPos ≤ k := by
    intro e
    cases e with
    | floor r => exact floor_le_escape_iff h r k.bytes
    | key l => exact escape_le_iff h l.bytes k.bytes
  have hhi : ∀ e : End, keyBytes escape .ascending k < highEnd escape .ascending e ↔
      ∀ hi, (Stretch.mk none (some e)).hiPos = some hi → k < hi := by
    intro e
    cases e with
    | floor r =>
      have hfloor := not_congr (floor_le_escape_iff h r k.bytes)
      rw [not_le, not_le] at hfloor
      exact hfloor.trans ⟨fun hk _ heq => Option.some.inj heq ▸ hk, fun hk => hk _ rfl⟩
    | key l =>
      have hkey := escape_lt_iff h k.bytes (l.bytes ++ [0xFF])
      rw [← escape_append_ff h] at hkey
      exact hkey.trans ⟨fun hk _ heq => Option.some.inj heq ▸ hk, fun hk => hk _ rfl⟩
  obtain ⟨lo, hi⟩ := s
  unfold Span.Holds Stretch.Holds
  refine and_congr ?_ ?_
  · cases lo with
    | none => exact iff_of_true nofun (Key.nil_le k)
    | some e => exact ⟨fun hl => (hlo e).mp (hl _ rfl), fun hl _ heq => Option.some.inj heq ▸ (hlo e).mpr hl⟩
  · cases hi with
    | none => exact iff_of_true nofun nofun
    | some e => exact ⟨fun hl => (hhi e).mp (hl _ rfl), fun hl _ heq => Option.some.inj heq ▸ (hhi e).mpr hl⟩

/-! ## A descending field -/

/-- Two keys of which neither goes on, closed by a separator, as the other closed by one does. -/
def Separate (x y : Key) : Prop := Open 0 (compare x.bytes y.bytes) x.bytes y.bytes

theorem separate_of_encodeValue {o : BinDataOrder} (ho : o ≠ .format4) {a b : Bson} {ka kb : Bytes}
    (ha : encodeValue o a = .ok ka) (hb : encodeValue o b = .ok kb)
    (hclash : reaches valueClash noElement o a b = false) : Separate ⟨ka⟩ ⟨kb⟩ := by
  have hopen := open_encodeValue ho ha hb hclash
  unfold Separate
  rw [hopen.compare_eq]
  exact hopen

/-- The keys from the low end to the high one, both ends included, a rank's keys for an edge. -/
def Stretch.Between (s : Stretch) (k : Key) : Prop :=
  s.loPos ≤ k ∧ (∀ r, s.hi = some (.floor r) → k < ⟨[r]⟩) ∧ ∀ h, s.hi = some (.key h) → k ≤ h

/-- The ends a descending field can store: edges of ranks from 1 on, and keys apart from `k`. -/
def Stretch.EndsFor (s : Stretch) (k : Key) : Prop :=
  ∀ e, s.lo = some e ∨ s.hi = some e →
    match e with
    | .floor r => r ≠ 0
    | .key h => Separate h k

theorem Key.compare_le_iff (x y : Key) : x ≤ y ↔ compare x.bytes y.bytes ≠ .gt := by
  show (compare x.bytes y.bytes).isLE = true ↔ _
  cases compare x.bytes y.bytes <;> simp

/-- Stored descending, separate keys turn their order round, also with bytes behind the first. -/
theorem compare_directed {x y : Key} (h : Separate x y) (b : Bytes) :
    compare (directed x.bytes .descending ++ b) (directed y.bytes .descending) =
      ((compare x.bytes y.bytes).swap).then (compare b []) := by
  have hsettled := Index.settled_descending h
  have hb := hsettled b []
  rwa [List.append_nil] at hb

theorem keyBytes_le_iff {escape : Bytes → Bytes} (h : IsEscape escape) {x y : Key} (hsep : Separate x y) :
    keyBytes escape .descending x ≤ keyBytes escape .descending y ↔ y ≤ x := by
  have hdir := compare_directed hsep []
  rw [List.append_nil] at hdir
  unfold keyBytes
  rw [escape_le_iff h, Key.compare_le_iff, hdir, Key.compare_le_iff, compare_bytes_swap x.bytes y.bytes]
  cases compare x.bytes y.bytes <;> simp

theorem keyBytes_lt_iff {escape : Bytes → Bytes} (h : IsEscape escape) {x y : Key} (hsep : Separate x y) :
    keyBytes escape .descending y < ⟨(keyBytes escape .descending x).bytes ++ [0xFF]⟩ ↔ x ≤ y := by
  have hdir := compare_directed hsep [0xFF]
  have hstep : keyBytes escape .descending y < ⟨(keyBytes escape .descending x).bytes ++ [0xFF]⟩ ↔
      Key.mk (directed y.bytes .descending) < Key.mk (directed x.bytes .descending ++ [0xFF]) := by
    unfold keyBytes
    rw [escape_append_ff h, escape_lt_iff h]
  rw [hstep, Key.lt_iff, compare_bytes_swap (directed x.bytes .descending ++ [0xFF]), hdir, Key.compare_le_iff]
  cases compare x.bytes y.bytes <;> simp

/-- The edge of a rank, stored descending, lies between the keys below the rank and the others. -/
theorem floorBytes_le_iff {escape : Bytes → Bytes} (h : IsEscape escape) {r : UInt8} (hr : r ≠ 0) (k : Key) :
    floorBytes .descending r ≤ keyBytes escape .descending k ↔ k < ⟨[r]⟩ := by
  have hhead : (directed k.bytes .descending).head? = some ((k.bytes.head?.map (· ^^^ 0xFF)).getD 0xFF) := by
    cases k.bytes <;> rfl
  have hfloor : (0xFF - r + 1).toNat = 256 - r.toNat := by
    have hlt := r.toNat_lt
    have hpos : r.toNat ≠ 0 := fun h0 => hr (UInt8.toNat_inj.mp h0)
    have hff : (0xFF : UInt8).toNat = 255 := rfl
    have hone : (1 : UInt8).toNat = 1 := rfl
    rw [UInt8.toNat_add, UInt8.toNat_sub, hff, hone]
    omega
  unfold floorBytes keyBytes
  rw [floor_le_escape_iff h, floor_le_iff, hhead, ← not_le, show k = ⟨k.bytes⟩ from rfl, floor_le_iff]
  have hlt := r.toNat_lt
  have hpos : r.toNat ≠ 0 := fun h0 => hr (UInt8.toNat_inj.mp h0)
  cases hk : k.bytes with
  | nil =>
    refine iff_of_true ⟨_, rfl, ?_⟩ fun ⟨_, h, _⟩ => nomatch h
    rw [UInt8.le_iff_toNat_le, hfloor]
    show 256 - r.toNat ≤ 255
    omega
  | cons c rest =>
    have hc := c.toNat_lt
    simp only [List.head?_cons, Option.map_some, Option.getD_some, Option.some.injEq, exists_eq_left']
    rw [UInt8.le_iff_toNat_le, UInt8.le_iff_toNat_le, hfloor, Index.toNat_xor_ff]
    omega

/-- Descending, a span holds the stored key of the keys between the stretch's ends. -/
theorem holds_spanOf_descending {escape : Bytes → Bytes} (h : IsEscape escape) {s : Stretch} {k : Key}
    (hends : s.EndsFor k) :
    (spanOf escape .descending s).Holds (keyBytes escape .descending k) ↔ s.Between k := by
  have hlow : (∀ l, s.hi.map (lowEnd escape .descending) = some l → l ≤ keyBytes escape .descending k) ↔
      (∀ r, s.hi = some (.floor r) → k < ⟨[r]⟩) ∧ ∀ e, s.hi = some (.key e) → k ≤ e := by
    cases hhi : s.hi with
    | none => exact iff_of_true nofun ⟨nofun, nofun⟩
    | some e =>
      cases e with
      | floor r =>
        have hr := hends _ (.inr hhi)
        have hfloor := floorBytes_le_iff h hr k
        refine ⟨fun hl => ⟨fun r' heq => ?_, nofun⟩, fun hl l heq => ?_⟩
        · obtain rfl := End.floor.inj (Option.some.inj heq)
          exact hfloor.mp (hl _ rfl)
        · obtain rfl := Option.some.inj heq
          exact hfloor.mpr (hl.1 r rfl)
      | key e =>
        have hkey := keyBytes_le_iff h (hends _ (.inr hhi))
        refine ⟨fun hl => ⟨nofun, fun e' heq => ?_⟩, fun hl l heq => ?_⟩
        · obtain rfl := End.key.inj (Option.some.inj heq)
          exact hkey.mp (hl _ rfl)
        · obtain rfl := Option.some.inj heq
          exact hkey.mpr (hl.2 e rfl)
  have hhigh : (∀ e, s.lo.map (highEnd escape .descending) = some e → keyBytes escape .descending k < e) ↔
      s.loPos ≤ k := by
    unfold Stretch.loPos
    cases hlo : s.lo with
    | none => exact iff_of_true nofun (Key.nil_le k)
    | some e =>
      cases e with
      | floor r =>
        have hfloor := not_congr (floorBytes_le_iff h (hends _ (.inl hlo)) k)
        rw [not_le, not_lt] at hfloor
        exact ⟨fun hl => hfloor.mp (hl _ rfl), fun hl _ heq => Option.some.inj heq ▸ hfloor.mpr hl⟩
      | key e =>
        have hkey := keyBytes_lt_iff h (hends _ (.inl hlo))
        exact ⟨fun hl => hkey.mp (hl _ rfl), fun hl _ heq => Option.some.inj heq ▸ hkey.mpr hl⟩
  unfold Span.Holds Stretch.Between spanOf
  rw [hlow, hhigh]
  exact and_comm

/-- The ends a stretch has in an index of the order: edges of ranks, and keys of values, none of them the text of
    `v` held as a raw carrier. -/
def Stretch.EndsOf (o : BinDataOrder) (v : Bson) (s : Stretch) : Prop :=
  ∀ e, s.lo = some e ∨ s.hi = some e →
    match e with
    | .floor r => r ≠ 0
    | .key h => ∃ w, encodeValue o w = .ok h.bytes ∧ reaches valueClash noElement o w v = false

theorem endsFor_of_endsOf {o : BinDataOrder} (ho : o ≠ .format4) {v : Bson} {k : Key}
    (hk : encodeValue o v = .ok k.bytes) {s : Stretch} (h : s.EndsOf o v) : s.EndsFor k := by
  intro e he
  have hend := h e he
  cases e with
  | floor r => exact hend
  | key l =>
    obtain ⟨w, hw, hclash⟩ := hend
    exact separate_of_encodeValue ho hw hk hclash

/-- The spans are in order and lie apart; they hold the stored keys of the stretches, a descending field's the
    keys between the ends; and intersecting stretches gives the keys of both. Format 4 keys only `_id`, which is
    ascending. -/
theorem toSpans_exact {escape : Bytes → Bytes} (h : IsEscape escape) (stretches others : List Stretch) (k : Key) :
    (∀ dir, (toSpans escape dir stretches).Pairwise fun s t =>
      s.startsBy t = true ∧ s.Apart t ∧ ∀ x, s.Holds x → ¬ t.Holds x) ∧
    ((∃ s ∈ toSpans escape .ascending stretches, s.Holds (keyBytes escape .ascending k)) ↔ Held stretches k) ∧
    (∀ o v, o ≠ .format4 → encodeValue o v = .ok k.bytes → (∀ s ∈ stretches, s.EndsOf o v) →
      ((∃ s ∈ toSpans escape .descending stretches, s.Holds (keyBytes escape .descending k)) ↔
        ∃ s ∈ stretches, s.Between k)) ∧
    (Held (intersectLists stretches others) k ↔ Held stretches k ∧ Held others k) := by
  refine ⟨fun dir => ?_, ?_, fun o v ho hk hends => ?_, held_intersectLists stretches others k⟩
  · refine (apart_toSpans escape dir stretches).imp fun hst => ⟨hst.1, hst.2, fun x hs => ?_⟩
    exact hst.2.not_holds hs
  · rw [holds_toSpans]
    exact exists_congr fun s => and_congr_right fun _ => holds_spanOf_ascending h s k
  · rw [holds_toSpans]
    exact exists_congr fun s => and_congr_right fun hs =>
      holds_spanOf_descending h (endsFor_of_endsOf ho hk (hends s hs))

theorem toSpans_exact_bool :
    ∃ s ∈ toSpans Index.escapeKb .descending [.point ⟨[9, 1]⟩],
      s.Holds (keyBytes Index.escapeKb .descending ⟨[9, 1]⟩) := by
  have hspans := (toSpans_exact (.inl rfl) [.point ⟨[9, 1]⟩] [] ⟨[9, 1]⟩).2.2.1 .mongod (.boolean true) (by decide) rfl
  refine (hspans ?_).mpr ⟨_, List.mem_singleton_self _, by decide, nofun, fun e he => ?_⟩
  · intro s hs e he
    obtain rfl := List.mem_singleton.mp hs
    obtain rfl : End.key ⟨[9, 1]⟩ = e := he.elim Option.some.inj Option.some.inj
    exact ⟨.boolean true, rfl, by decide⟩
  · obtain rfl := End.key.inj (Option.some.inj he)
    exact le_refl _

/-- The stretch of the string "s" takes "sa" along, a descending field's span does not. -/
theorem toSpans_descending_extension :
    Held [.point ⟨[4, 115]⟩] ⟨[4, 115, 97]⟩ ∧
      ¬ ∃ s ∈ toSpans Index.escapeKb .descending [.point ⟨[4, 115]⟩],
        s.Holds (keyBytes Index.escapeKb .descending ⟨[4, 115, 97]⟩) := by
  constructor
  · refine ⟨_, List.mem_singleton_self _, by decide, fun hi hhi => ?_⟩
    obtain rfl := Option.some.inj hhi
    decide
  · rw [holds_toSpans]
    rintro ⟨s, hs, hlo, -⟩
    obtain rfl := List.mem_singleton.mp hs
    exact absurd (hlo _ rfl) (by decide)

end Secantus.ScanBounds
