/-
  Stretches of an index's keys (scan_bounds.rs, `End`, `Stretch`, `intersect`).

  A stretch holds the keys from its low position on and below its high one; a high end that is a value's
  key takes the keys that extend it along. `held_intersectLists`: intersecting gives exactly the keys of both.
-/
import Secantus.Library.Spans
import Secantus.Index.Entry

namespace Secantus.ScanBounds

open Secantus Bson BsonOrder SortKey

/-- A key, compared byte by byte. -/
structure Key where
  bytes : Bytes
  deriving DecidableEq

theorem compare_bytes_swap (x y : Bytes) : compare y x = (compare x y).swap := Std.OrientedOrd.eq_swap

instance : LinearOrder Key where
  le x y := (compare x.bytes y.bytes).isLE = true
  lt x y := compare x.bytes y.bytes = .lt
  le_refl x := by
    show (compare x.bytes x.bytes).isLE = true
    rw [Std.compare_self]
    rfl
  le_trans _ _ _ h h' := Std.TransOrd.isLE_trans h h'
  le_antisymm x y hx hy := by
    have hy : (compare y.bytes x.bytes).isLE = true := hy
    rw [compare_bytes_swap] at hy
    have heq : compare x.bytes y.bytes = .eq := by
      have hx : (compare x.bytes y.bytes).isLE = true := hx
      cases hc : compare x.bytes y.bytes with
      | lt =>
        rw [hc] at hy
        cases hy
      | eq => rfl
      | gt =>
        rw [hc] at hx
        cases hx
    exact congrArg Key.mk (Std.compare_eq_iff_eq.mp heq)
  le_total x y := by
    show (compare x.bytes y.bytes).isLE = true ∨ (compare y.bytes x.bytes).isLE = true
    rw [compare_bytes_swap x.bytes]
    cases compare x.bytes y.bytes with
    | lt => exact .inl rfl
    | eq => exact .inl rfl
    | gt => exact .inr rfl
  lt_iff_le_not_ge x y := by
    show compare x.bytes y.bytes = .lt ↔
      (compare x.bytes y.bytes).isLE = true ∧ ¬ (compare y.bytes x.bytes).isLE = true
    rw [compare_bytes_swap x.bytes]
    cases compare x.bytes y.bytes with
    | lt => exact iff_of_true rfl ⟨rfl, nofun⟩
    | eq => exact iff_of_false nofun fun h => h.2 rfl
    | gt => exact iff_of_false nofun fun h => nomatch h.1
  toDecidableLE _ _ := inferInstanceAs (Decidable (_ = true))
  toDecidableLT _ _ := inferInstanceAs (Decidable (_ = Ordering.lt))

namespace Key

theorem lt_iff (x y : Key) : x < y ↔ compare x.bytes y.bytes = .lt := Iff.rfl

theorem lt_of_head_lt {a b : UInt8} (h : a < b) (x y : Bytes) : Key.mk (a :: x) < Key.mk (b :: y) := by
  have hc : compare a b = .lt := Std.compare_eq_lt.mpr h
  rw [lt_iff, List.compare_cons_cons, hc]
  rfl

theorem cons_le_cons_iff (b : UInt8) (x y : Bytes) :
    Key.mk (b :: x) ≤ Key.mk (b :: y) ↔ Key.mk x ≤ Key.mk y := by
  show (compare (b :: x) (b :: y)).isLE = true ↔ (compare x y).isLE = true
  rw [List.compare_cons_cons, Std.compare_self]
  rfl

theorem cons_lt_cons_iff (a b : UInt8) (x y : Bytes) :
    Key.mk (a :: x) < Key.mk (b :: y) ↔ a < b ∨ a = b ∧ Key.mk x < Key.mk y := by
  rw [lt_iff, lt_iff, List.compare_cons_cons, Ordering.then_eq_lt, Std.compare_eq_lt, Std.compare_eq_iff_eq]

theorem not_lt_nil (x : Key) : ¬ x < Key.mk [] := by
  rw [lt_iff]
  cases x.bytes <;> nofun

theorem nil_le (x : Key) : Key.mk [] ≤ x := by
  show (compare [] x.bytes).isLE = true
  cases x.bytes <;> rfl

theorem le_append (x y : Bytes) : Key.mk x ≤ Key.mk (x ++ y) := by
  induction x with
  | nil => exact nil_le _
  | cons b x ih => exact (cons_le_cons_iff b x (x ++ y)).mpr ih

theorem lt_append {y : Bytes} (h : y ≠ []) (x : Bytes) : Key.mk x < Key.mk (x ++ y) := by
  refine lt_of_le_of_ne (le_append x y) fun heq => h ?_
  exact List.self_eq_append_right.mp (congrArg Key.bytes heq)

end Key

inductive End where
  /-- The edge of a type rank. -/
  | floor (rank : UInt8)
  /-- A value's ascending key. -/
  | key (k : Key)
  deriving DecidableEq

/-- `Stretch`: low to high; `none` is unbounded. -/
structure Stretch where
  lo : Option End
  hi : Option End
  deriving DecidableEq

namespace Stretch

def all : Stretch := ⟨none, none⟩

def point (key : Key) : Stretch := ⟨some (.key key), some (.key key)⟩

def bracket (rank : UInt8) : Stretch := ⟨some (.floor rank), some (.floor (rank + 1))⟩

/-- `lo_pos`: bytes every key the stretch holds is at or above. -/
def loPos (s : Stretch) : Key :=
  match s.lo with
  | none => ⟨[]⟩
  | some (.floor r) => ⟨[r]⟩
  | some (.key k) => k

/-- `hi_pos`: bytes every key it holds is below. -/
def hiPos (s : Stretch) : Option Key :=
  match s.hi with
  | none => none
  | some (.floor r) => some ⟨[r]⟩
  | some (.key k) => some ⟨k.bytes ++ [0xFF]⟩

def isEmpty (s : Stretch) : Bool := s.hiPos.any fun hi => hi ≤ s.loPos

/-- The overlap of two stretches, none where it is empty. -/
def intersect (s t : Stretch) : Option Stretch :=
  let lo := if t.loPos ≤ s.loPos then s.lo else t.lo
  let hi :=
    match s.hiPos, t.hiPos with
    | none, _ => t.hi
    | _, none => s.hi
    | some a, some b => if a ≤ b then s.hi else t.hi
  let out : Stretch := ⟨lo, hi⟩
  if out.isEmpty then none else some out

/-- The stretch holds the key. -/
def Holds (s : Stretch) (k : Key) : Prop := s.loPos ≤ k ∧ ∀ hi, s.hiPos = some hi → k < hi

theorem isEmpty_iff {s : Stretch} : s.isEmpty = true ↔ ∃ hi, s.hiPos = some hi ∧ hi ≤ s.loPos := by
  unfold isEmpty
  cases s.hiPos with
  | none => exact iff_of_false nofun fun ⟨_, h, _⟩ => nomatch h
  | some hi =>
    refine ⟨fun h => ⟨hi, rfl, of_decide_eq_true h⟩, ?_⟩
    rintro ⟨hi', h, hle⟩
    obtain rfl := Option.some.inj h
    exact decide_eq_true hle

theorem not_holds_of_isEmpty {s : Stretch} (h : s.isEmpty = true) (k : Key) : ¬ s.Holds k := by
  obtain ⟨hi, hs, hle⟩ := isEmpty_iff.mp h
  rintro ⟨hlo, hhi⟩
  exact absurd (hhi hi hs) (not_lt_of_ge (le_trans hle hlo))

theorem holds_all (k : Key) : all.Holds k := ⟨Key.nil_le k, nofun⟩

theorem holds_bracket {rank : UInt8} (hr : rank < rank + 1) (body : Bytes) :
    (bracket rank).Holds ⟨rank :: body⟩ := by
  refine ⟨Key.le_append [rank] body, fun hi hhi => ?_⟩
  obtain rfl := Option.some.inj hhi
  exact Key.lt_of_head_lt hr body []

theorem rank_of_holds_bracket {rank b : UInt8} {body : Bytes} (h : (bracket rank).Holds ⟨b :: body⟩) :
    b = rank := by
  have hlo : ¬ Key.mk (b :: body) < Key.mk [rank] := not_lt_of_ge h.1
  have hhi : Key.mk (b :: body) < Key.mk [rank + 1] := h.2 _ rfl
  rw [Key.cons_lt_cons_iff] at hlo hhi
  have hge : ¬ b < rank := fun hlt => hlo (.inl hlt)
  have hlt : b < rank + 1 := hhi.resolve_right fun h => Key.not_lt_nil _ h.2
  rw [UInt8.lt_iff_toNat_lt] at hge hlt
  rw [UInt8.toNat_add] at hlt
  have hone : (1 : UInt8).toNat = 1 := rfl
  have hmod := Nat.mod_le (rank.toNat + 1) (2 ^ 8)
  rw [← UInt8.toNat_inj]
  omega

theorem holds_point_iff {rank b : UInt8} {body : Bytes} :
    (point ⟨[rank]⟩).Holds ⟨b :: body⟩ ↔ b = rank ∧ body.head? ≠ some 0xFF := by
  have hbody : Key.mk body < Key.mk [0xFF] ↔ body.head? ≠ some 0xFF := by
    cases body with
    | nil => exact iff_of_true rfl nofun
    | cons c body =>
      rw [Key.cons_lt_cons_iff, List.head?_cons]
      have hc : ∀ c : UInt8, c < 0xFF ↔ c ≠ 0xFF := by
        intro c
        rw [UInt8.lt_iff_toNat_lt, ← not_iff_not, not_not, ← UInt8.toNat_inj]
        have hlt := c.toNat_lt
        have hff : (0xFF : UInt8).toNat = 255 := rfl
        omega
      rw [hc, or_iff_left fun h => Key.not_lt_nil _ h.2, Ne, Ne, Option.some.injEq]
  have hhi : (∀ hi, (point ⟨[rank]⟩).hiPos = some hi → Key.mk (b :: body) < hi) ↔
      Key.mk (b :: body) < Key.mk [rank, 0xFF] :=
    ⟨fun h => h _ rfl, fun h hi heq => Option.some.inj heq ▸ h⟩
  unfold Holds
  rw [hhi, Key.cons_lt_cons_iff, hbody]
  constructor
  · rintro ⟨hlo, hlt | h⟩
    · exact absurd (Key.lt_of_head_lt hlt body []) (not_lt_of_ge hlo)
    · exact h
  · rintro ⟨rfl, hhead⟩
    exact ⟨Key.le_append [b] body, .inr ⟨rfl, hhead⟩⟩

theorem holds_point (k : Key) : (point k).Holds k := by
  refine ⟨le_refl k, fun hi hhi => ?_⟩
  obtain rfl := Option.some.inj hhi
  exact Key.lt_append (by decide) k.bytes

/-- The positions of an overlap are the higher low one and the lower high one. -/
theorem holds_intersect (s t : Stretch) (k : Key) :
    (∃ u, s.intersect t = some u ∧ u.Holds k) ↔ s.Holds k ∧ t.Holds k := by
  unfold intersect
  extract_lets lo hi out
  have hlo : out.loPos ≤ k ↔ s.loPos ≤ k ∧ t.loPos ≤ k := by
    by_cases hle : t.loPos ≤ s.loPos
    · have hout : out.loPos = s.loPos := by simp only [loPos, out, lo, if_pos hle]
      rw [hout]
      exact ⟨fun h => ⟨h, le_trans hle h⟩, fun h => h.1⟩
    · have hout : out.loPos = t.loPos := by simp only [loPos, out, lo, if_neg hle]
      rw [hout]
      exact ⟨fun h => ⟨le_trans (le_of_not_ge hle) h, h⟩, fun h => h.2⟩
  have hhi : (∀ e, out.hiPos = some e → k < e) ↔
      (∀ e, s.hiPos = some e → k < e) ∧ ∀ e, t.hiPos = some e → k < e := by
    have hpos : ∀ r : Stretch, hi = r.hi → out.hiPos = r.hiPos := by
      intro r h
      show (Stretch.mk lo hi).hiPos = r.hiPos
      rw [h]
      rfl
    cases hs : s.hiPos with
    | none =>
      have hout : out.hiPos = t.hiPos := hpos t (by simp only [hi, hs])
      rw [hout]
      exact ⟨fun h => ⟨nofun, h⟩, fun h => h.2⟩
    | some a =>
      cases ht : t.hiPos with
      | none =>
        have hout : out.hiPos = some a := (hpos s (by simp only [hi, hs, ht])).trans hs
        rw [hout]
        exact ⟨fun h => ⟨h, nofun⟩, fun h => h.1⟩
      | some b =>
        by_cases hle : a ≤ b
        · have hout : out.hiPos = some a := (hpos s (by simp only [hi, hs, ht, if_pos hle])).trans hs
          rw [hout]
          refine ⟨fun h => ⟨h, fun e he => ?_⟩, fun h => h.1⟩
          obtain rfl := Option.some.inj he
          exact lt_of_lt_of_le (h a rfl) hle
        · have hout : out.hiPos = some b := (hpos t (by simp only [hi, hs, ht, if_neg hle])).trans ht
          rw [hout]
          refine ⟨fun h => ⟨fun e he => ?_, h⟩, fun h => h.2⟩
          obtain rfl := Option.some.inj he
          exact lt_of_lt_of_le (h b rfl) (le_of_not_ge hle)
  have hholds : out.Holds k ↔ s.Holds k ∧ t.Holds k := by
    unfold Holds
    rw [hlo, hhi]
    exact and_and_and_comm
  rw [← hholds]
  by_cases hempty : out.isEmpty = true
  · rw [if_pos hempty]
    exact iff_of_false (fun ⟨_, h, _⟩ => nomatch h) (not_holds_of_isEmpty hempty k)
  · rw [if_neg hempty]
    exact ⟨fun ⟨u, hu, hk⟩ => Option.some.inj hu ▸ hk, fun hk => ⟨out, rfl, hk⟩⟩

end Stretch

/-- `intersect`: pairwise overlaps of two lists. -/
def intersectLists (a b : List Stretch) : List Stretch := a.flatMap fun x => b.filterMap fun y => x.intersect y

/-- Some stretch of the list holds the key. -/
def Held (stretches : List Stretch) (k : Key) : Prop := ∃ s ∈ stretches, s.Holds k

theorem held_intersectLists (a b : List Stretch) (k : Key) :
    Held (intersectLists a b) k ↔ Held a k ∧ Held b k := by
  unfold Held intersectLists
  simp only [List.mem_flatMap, List.mem_filterMap]
  constructor
  · rintro ⟨u, ⟨x, hx, y, hy, hu⟩, hk⟩
    obtain ⟨hxk, hyk⟩ := (Stretch.holds_intersect x y k).mp ⟨u, hu, hk⟩
    exact ⟨⟨x, hx, hxk⟩, ⟨y, hy, hyk⟩⟩
  · rintro ⟨⟨x, hx, hxk⟩, ⟨y, hy, hyk⟩⟩
    obtain ⟨u, hu, hk⟩ := (Stretch.holds_intersect x y k).mpr ⟨hxk, hyk⟩
    exact ⟨u, ⟨x, hx, y, hy, hu⟩, hk⟩

end Secantus.ScanBounds
