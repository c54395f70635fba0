/-
  `geohash2d.rs`: a cell, `bits` pairs of a hash in the high bits of one word.

  A cell is one range of keys, from `hashMin` to `hashMax` (`toNat_hashMax`), and contains another cell when it holds
  its range (`contains_iff`). Cells are aligned blocks and so nested (`cells`). `subdivide` and `parent` are the four
  quarters of a range and back (`subdivide_eq_some`, `parent_eq_some`).
-/
import Secantus.Geohash.Words
import Secantus.Library.Nested

namespace Secantus.Geohash

open Library

/-- `bits` per axis, in the high `2 * bits` bits of `hash`. -/
@[ext] structure GeoHash where
  hash : BitVec 64
  bits : ℕ
  bits_le : bits ≤ 32
  low_clear : 2 ^ (64 - 2 * bits) ∣ hash.toNat
deriving DecidableEq

variable {c d p : GeoHash} {hash : BitVec 64} {bits : ℕ}

namespace GeoHash

/-- `GeoHash::operator<`: the hash, then the bits. -/
def cmp (c d : GeoHash) : Ordering := (compare c.hash.toNat d.hash.toNat).then (compare c.bits d.bits)

/-! ## Making cells -/

/-- The hash `GeoHash::new` keeps, its unused low bits cleared. -/
def clearLow (hash : BitVec 64) (bits : ℕ) : BitVec 64 :=
  if bits = 0 then 0
  else if bits = 32 then hash
  else hash &&& ~~~((1#64 <<< (64 - bits * 2)) - 1#64)

/-- The hash `GeoHash::from_xy` keeps. -/
def xyHash (x y : BitVec 32) (bits : ℕ) : BitVec 64 :=
  let full := (interleaveWithZeros x <<< 1) ||| interleaveWithZeros y
  let mask := if bits = 0 then 0#64 else BitVec.allOnes 64 <<< (64 - bits * 2)
  full &&& mask

theorem toNat_clearLow (hbits : bits ≤ 32) :
    (clearLow hash bits).toNat = hash.toNat / 2 ^ (64 - 2 * bits) * 2 ^ (64 - 2 * bits) := by
  unfold clearLow
  split_ifs with h0 h32
  · subst h0
    rw [Nat.div_eq_of_lt (by simpa using hash.isLt), Nat.zero_mul]
    rfl
  · subst h32
    simp
  · rw [show 64 - bits * 2 = 64 - 2 * bits by omega]
    refine toNat_and_top fun i hi => ?_
    rw [BitVec.getLsbD_not, decide_eq_true hi, Bool.true_and, ← BitVec.testBit_toNat,
      toNat_one_shiftLeft_sub_one (by omega), Nat.testBit_two_pow_sub_one, ← decide_not, decide_eq_decide]
    omega

theorem getLsbD_xyMask (hbits : bits ≤ 32) {i : ℕ} (hi : i < 64) :
    (if bits = 0 then 0#64 else BitVec.allOnes 64 <<< (64 - bits * 2)).getLsbD i = decide (64 - 2 * bits ≤ i) := by
  split_ifs with h0
  · rw [decide_eq_false (by omega), BitVec.getLsbD_zero]
  · rw [BitVec.getLsbD_shiftLeft, BitVec.getLsbD_allOnes, decide_eq_true hi, decide_eq_true (by omega : i - _ < 64),
      Bool.true_and, Bool.and_true, ← decide_not, decide_eq_decide]
    omega

theorem getLsbD_xyHash (x y : BitVec 32) (hbits : bits ≤ 32) {i : ℕ} (hi : i < 64) :
    (xyHash x y bits).getLsbD i =
      (decide (64 - 2 * bits ≤ i) && if i % 2 = 1 then x.getLsbD (i / 2) else y.getLsbD (i / 2)) := by
  rw [xyHash, BitVec.getLsbD_and, getLsbD_xyMask hbits hi, Bool.and_comm, BitVec.getLsbD_or, BitVec.getLsbD_shiftLeft,
    getLsbD_interleaveWithZeros _ hi, getLsbD_interleaveWithZeros _ (by omega : i - 1 < 64), decide_eq_true hi,
    Bool.true_and]
  congr 1
  rcases Nat.mod_two_eq_zero_or_one i with h0 | h1
  · rw [if_neg (by omega), decide_eq_true h0, Bool.true_and]
    rcases Nat.eq_zero_or_pos i with rfl | hpos
    · simp
    · rw [decide_eq_false (by omega : ¬ (i - 1) % 2 = 0), Bool.false_and, Bool.and_false, Bool.false_or]
  · rw [if_pos h1, decide_eq_false (by omega : ¬ i % 2 = 0), Bool.false_and, Bool.or_false,
      decide_eq_false (by omega : ¬ i < 1), decide_eq_true (by omega : (i - 1) % 2 = 0),
      show (i - 1) / 2 = i / 2 by omega, Bool.not_false, Bool.true_and, Bool.true_and]

/-- `GeoHash(hash, bits)`: the unused low bits cleared. -/
def new (hash : BitVec 64) (bits : ℕ) (hbits : bits ≤ 32) : GeoHash where
  hash := clearLow hash bits
  bits := bits
  bits_le := hbits
  low_clear := by
    rw [toNat_clearLow hbits]
    exact Nat.dvd_mul_left _ _

/-- `GeoHash(x, y, bits)`. -/
def fromXY (x y : BitVec 32) (bits : ℕ) (hbits : bits ≤ 32) : GeoHash where
  hash := xyHash x y bits
  bits := bits
  bits_le := hbits
  low_clear := by
    rw [xyHash, toNat_and_top fun i hi => getLsbD_xyMask hbits hi]
    exact Nat.dvd_mul_left _ _

def unhash (c : GeoHash) : BitVec 32 × BitVec 32 := (deinterleaveZeros (c.hash >>> 1), deinterleaveZeros c.hash)

/-- A coordinate with its first `bits` bits, zeros below. -/
def keptBits (bits : ℕ) (x : BitVec 32) : BitVec 32 := (x >>> (32 - bits)) <<< (32 - bits)

theorem getLsbD_keptBits (x : BitVec 32) {i : ℕ} (hi : i < 32) :
    (keptBits bits x).getLsbD i = (decide (32 - bits ≤ i) && x.getLsbD i) := by
  rw [keptBits, BitVec.getLsbD_shiftLeft, BitVec.getLsbD_ushiftRight, decide_eq_true hi, Bool.true_and]
  by_cases h : i < 32 - bits
  · rw [decide_eq_true h, decide_eq_false (by omega : ¬ 32 - bits ≤ i), Bool.not_true, Bool.false_and, Bool.false_and]
  · rw [decide_eq_false h, decide_eq_true (by omega : 32 - bits ≤ i), show 32 - bits + (i - (32 - bits)) = i by omega,
      Bool.not_false]

/-- `unhash` gives back what the cell was made from, as far as the cell keeps it. -/
theorem unhash_fromXY_eq (x y : BitVec 32) (hbits : bits ≤ 32) :
    (fromXY x y bits hbits).unhash = (keptBits bits x, keptBits bits y) := by
  rw [unhash, Prod.mk.injEq]
  constructor
  · refine BitVec.eq_of_getLsbD_eq fun i hi => ?_
    rw [getLsbD_deinterleaveZeros _ hi, BitVec.getLsbD_ushiftRight, getLsbD_keptBits _ hi]
    show (xyHash x y bits).getLsbD (1 + 2 * i) = _
    rw [getLsbD_xyHash x y hbits (by omega), if_pos (by omega), show (1 + 2 * i) / 2 = i by omega]
    congr 1
    rw [decide_eq_decide]
    omega
  · refine BitVec.eq_of_getLsbD_eq fun i hi => ?_
    rw [getLsbD_deinterleaveZeros _ hi, getLsbD_keptBits _ hi]
    show (xyHash x y bits).getLsbD (2 * i) = _
    rw [getLsbD_xyHash x y hbits (by omega), if_neg (by omega), show 2 * i / 2 = i by omega]
    congr 1
    rw [decide_eq_decide]
    omega

/-! ## Ranges of keys -/

/-- `appendHashMin`: the least key in the cell. -/
def hashMin (c : GeoHash) : BitVec 64 := c.hash

/-- `appendHashMax`: the greatest key in the cell. -/
def hashMax (c : GeoHash) : BitVec 64 := c.hash ||| ~~~(allX c.bits ||| allY c.bits)

/-- How many keys a cell has. -/
def width (c : GeoHash) : ℕ := 2 ^ (64 - 2 * c.bits)

theorem width_pos (c : GeoHash) : 0 < c.width := Nat.two_pow_pos _

theorem toNat_hashMax (c : GeoHash) : c.hashMax.toNat = c.hash.toNat + c.width - 1 := by
  have hlow : (~~~(allX c.bits ||| allY c.bits)).toNat = 2 ^ (64 - 2 * c.bits) - 1 := by
    refine toNat_ones_below (by omega) fun i hi => ?_
    rw [BitVec.getLsbD_not, getLsbD_allX_or_allY c.bits_le hi, decide_eq_true hi, Bool.true_and, ← decide_not,
      decide_eq_decide]
    omega
  have hpos := c.width_pos
  rw [hashMax, toNat_or_low c.low_clear (by rw [hlow]; exact Nat.sub_lt hpos Nat.one_pos), hlow]
  unfold width at hpos ⊢
  omega

theorem width_dvd (h : c.bits ≤ d.bits) : d.width ∣ c.width := Nat.pow_dvd_pow 2 (by omega)

/-- The cells of the index as nested ranges of keys. -/
def cells : Nested GeoHash ℕ where
  lo c := c.hashMin.toNat
  hi c := c.hashMax.toNat
  lo_le_hi c := by
    have := c.width_pos
    rw [toNat_hashMax, hashMin]
    omega
  nested c d := by
    rw [toNat_hashMax, toNat_hashMax]
    rcases Nat.le_total c.bits d.bits with h | h
    · rcases aligned_nested d.width_pos c.width_pos d.low_clear c.low_clear (width_dvd h) with hb | hb | hin
      · exact Or.inr (Or.inl hb)
      · exact Or.inl hb
      · exact Or.inr (Or.inr (Or.inr hin))
    · rcases aligned_nested c.width_pos d.width_pos c.low_clear d.low_clear (width_dvd h) with hb | hb | hin
      · exact Or.inl hb
      · exact Or.inr (Or.inl hb)
      · exact Or.inr (Or.inr (Or.inl hin))

/-- The keys of a cell. -/
def keys (c : GeoHash) : Set ℕ := Set.Icc c.hashMin.toNat c.hashMax.toNat

theorem inside_iff : cells.Inside d c ↔ c.hash.toNat ≤ d.hash.toNat ∧
    d.hash.toNat + d.width - 1 ≤ c.hash.toNat + c.width - 1 := by
  rw [← toNat_hashMax, ← toNat_hashMax]
  rfl

/-- `hasPrefix`: the two agree as far as `other` goes. -/
def hasPrefix (c other : GeoHash) : Bool :=
  if other.bits = 0 then true
  else (other.hash ^^^ c.hash).sshiftRight (64 - other.bits * 2) == 0#64

def contains (c other : GeoHash) : Bool := decide (c.bits ≤ other.bits) && other.hasPrefix c

theorem width_le_iff : d.width ≤ c.width ↔ c.bits ≤ d.bits := by
  have hc := c.bits_le
  have hd := d.bits_le
  unfold width
  rw [Nat.pow_le_pow_iff_right (by omega)]
  omega

theorem hasPrefix_iff : d.hasPrefix c = true ↔ d.hash.toNat / c.width = c.hash.toNat / c.width := by
  unfold hasPrefix width
  split_ifs with h0
  · rw [h0, Nat.div_eq_of_lt (by simpa using d.hash.isLt), Nat.div_eq_of_lt (by simpa using c.hash.isLt)]
    simp
  · rw [beq_iff_eq, show 64 - c.bits * 2 = 64 - 2 * c.bits by omega, sshiftRight_xor_eq_zero (by omega), eq_comm]

theorem contains_iff : c.contains d = true ↔ cells.Inside d c := by
  rw [contains, Bool.and_eq_true, decide_eq_true_eq, hasPrefix_iff, inside_iff]
  have hcw := c.width_pos
  have hdw := d.width_pos
  obtain ⟨q, hq⟩ := c.low_clear
  change c.hash.toNat = c.width * q at hq
  rw [hq, Nat.mul_div_cancel_left _ hcw, Nat.div_eq_iff hcw]
  constructor
  · rintro ⟨hbits, hlo, hhi⟩
    rcases aligned_nested hdw hcw d.low_clear c.low_clear (width_dvd hbits) with hb | hb | hin
    · rw [hq] at hb
      rw [Nat.mul_comm] at hb
      omega
    · rw [hq] at hb
      rw [Nat.mul_comm] at hb
      omega
    · rwa [hq] at hin
  · rintro ⟨hlo, hhi⟩
    have hle : d.width ≤ c.width := by omega
    refine ⟨width_le_iff.mp hle, ?_⟩
    rw [Nat.mul_comm]
    omega

/-! ## Quarters -/

def parent (c : GeoHash) : Option GeoHash :=
  if h : c.bits = 0 then none else some (new c.hash (c.bits - 1) (by have := c.bits_le; omega))

def subdivide (c : GeoHash) : Option (List GeoHash) :=
  if h : c.bits = 32 then none
  else
    have hbits : c.bits + 1 ≤ 32 := by have := c.bits_le; omega
    let c0 := new c.hash (c.bits + 1) hbits
    let c1 := new (c0.hash ||| 1#64 <<< (63 - (c.bits * 2 + 1))) (c.bits + 1) hbits
    let c2 := new (c0.hash ||| 1#64 <<< (63 - c.bits * 2)) (c.bits + 1) hbits
    let c3 := new (c1.hash ||| c2.hash) (c.bits + 1) hbits
    some [c0, c1, c2, c3]

/-- `c` is quarter `j` of `p`. -/
structure Quarter (p : GeoHash) (j : ℕ) (c : GeoHash) : Prop where
  bits_eq : c.bits = p.bits + 1
  hash_eq : c.hash.toNat = p.hash.toNat + j * c.width

theorem Quarter.width_eq {j : ℕ} (h : Quarter p j c) : p.width = 4 * c.width := by
  have hc := c.bits_le
  have hb := h.bits_eq
  unfold width
  rw [show 64 - 2 * p.bits = 64 - 2 * c.bits + 2 by omega, Nat.pow_add]
  ring

theorem Quarter.unique {j : ℕ} (hc : Quarter p j c) (hd : Quarter p j d) : c = d := by
  have hbits : c.bits = d.bits := hc.bits_eq.trans hd.bits_eq.symm
  have hw : c.width = d.width := by unfold width; rw [hbits]
  refine GeoHash.ext (BitVec.eq_of_toNat_eq ?_) hbits
  rw [hc.hash_eq, hd.hash_eq, hw]

theorem toNat_new (hbits : bits ≤ 32) :
    (new hash bits hbits).hash.toNat = hash.toNat / 2 ^ (64 - 2 * bits) * 2 ^ (64 - 2 * bits) := toNat_clearLow hbits

theorem hash_new (hbits : bits ≤ 32) (h : 2 ^ (64 - 2 * bits) ∣ hash.toNat) : (new hash bits hbits).hash = hash := by
  apply BitVec.eq_of_toNat_eq
  rw [toNat_new, Nat.div_mul_cancel h]

theorem parent_eq_some : c.parent = some p ↔ ∃ j < 4, Quarter p j c := by
  have hcw := c.width_pos
  unfold parent
  constructor
  · intro h
    split_ifs at h with h0
    obtain rfl := Option.some.inj h
    obtain ⟨q, hq⟩ := c.low_clear
    change c.hash.toNat = c.width * q at hq
    refine ⟨q % 4, Nat.mod_lt _ (by omega), ⟨show c.bits = c.bits - 1 + 1 by omega, ?_⟩⟩
    have hc := c.bits_le
    have hwidth : 2 ^ (64 - 2 * (c.bits - 1)) = c.width * 4 := by
      unfold width
      rw [show 64 - 2 * (c.bits - 1) = 64 - 2 * c.bits + 2 by omega, Nat.pow_add]
    rw [toNat_new, hwidth, hq, Nat.mul_div_mul_left _ _ hcw]
    calc c.width * q = c.width * (4 * (q / 4) + q % 4) := by rw [Nat.div_add_mod]
      _ = q / 4 * (c.width * 4) + q % 4 * c.width := by ring
  · rintro ⟨j, hj, hquarter⟩
    have h0 : ¬ c.bits = 0 := by rw [hquarter.bits_eq]; omega
    have hpb : c.bits - 1 = p.bits := by rw [hquarter.bits_eq]; omega
    rw [dif_neg h0, Option.some.injEq]
    refine GeoHash.ext (BitVec.eq_of_toNat_eq ?_) hpb
    obtain ⟨m, hm⟩ := p.low_clear
    change p.hash.toNat = p.width * m at hm
    have hlt : j * c.width < p.width := by
      rw [hquarter.width_eq]
      exact Nat.mul_lt_mul_of_pos_right hj hcw
    rw [toNat_new, hpb, hquarter.hash_eq]
    change _ / p.width * p.width = _
    rw [hm, Nat.mul_add_div p.width_pos, Nat.div_eq_of_lt hlt, Nat.add_zero, Nat.mul_comm]

/-- The quarters' hashes: the bits of the next pair put into the cell's. -/
theorem quarter_hash {n : ℕ} (hn : n + 2 = 64 - 2 * p.bits) (hcn : c.bits = p.bits + 1) :
    (c.hash = p.hash ↔ Quarter p 0 c) ∧ (c.hash = p.hash ||| 1#64 <<< n ↔ Quarter p 1 c) ∧
      (c.hash = p.hash ||| 1#64 <<< (n + 1) ↔ Quarter p 2 c) ∧
      (c.hash = (p.hash ||| 1#64 <<< n) ||| (p.hash ||| 1#64 <<< (n + 1)) ↔ Quarter p 3 c) := by
  have hw : c.width = 2 ^ n := by
    unfold width
    rw [show 64 - 2 * c.bits = n by omega]
  obtain ⟨h1, h2, h3⟩ := toNat_or_pair (x := p.hash) (n := n) (by omega) (by rw [hn]; exact p.low_clear)
  have hiff : ∀ {j : ℕ} {x : BitVec 64}, x.toNat = p.hash.toNat + j * 2 ^ n → (c.hash = x ↔ Quarter p j c) := by
    intro j x hx
    constructor
    · intro h
      exact ⟨hcn, by rw [h, hx, hw]⟩
    · intro h
      apply BitVec.eq_of_toNat_eq
      rw [h.hash_eq, hx, hw]
  exact ⟨hiff (by omega), hiff (by omega), hiff h2, hiff h3⟩

theorem subdivide_quarters (h : p.bits ≠ 32) : ∃ c0 c1 c2 c3, p.subdivide = some [c0, c1, c2, c3] ∧
    Quarter p 0 c0 ∧ Quarter p 1 c1 ∧ Quarter p 2 c2 ∧ Quarter p 3 c3 := by
  have hp := p.bits_le
  have hb : p.bits + 1 ≤ 32 := by omega
  obtain ⟨n, hn⟩ : ∃ n, n + 2 = 64 - 2 * p.bits := ⟨62 - 2 * p.bits, by omega⟩
  obtain ⟨h1, h2, h3⟩ := toNat_or_pair (x := p.hash) (n := n) (by omega) (by rw [hn]; exact p.low_clear)
  have hdvd : 2 ^ n ∣ p.hash.toNat := Nat.dvd_trans (Nat.pow_dvd_pow 2 (by omega)) p.low_clear
  have hkeep : ∀ {j : ℕ} {x : BitVec 64}, x.toNat = p.hash.toNat + j * 2 ^ n → (new x (p.bits + 1) hb).hash = x := by
    intro j x hx
    refine hash_new hb ?_
    rw [show 64 - 2 * (p.bits + 1) = n by omega, hx]
    exact (Nat.dvd_add_right hdvd).mpr (Nat.dvd_mul_left _ _)
  have hn0 := hkeep (j := 0) (x := p.hash) (by omega)
  have hn1 := hkeep (j := 1) (x := p.hash ||| 1#64 <<< n) (by omega)
  have hn2 := hkeep h2
  have hn3 := hkeep h3
  have hsub : p.subdivide = some [new p.hash (p.bits + 1) hb, new (p.hash ||| 1#64 <<< n) (p.bits + 1) hb,
      new (p.hash ||| 1#64 <<< (n + 1)) (p.bits + 1) hb,
      new ((p.hash ||| 1#64 <<< n) ||| (p.hash ||| 1#64 <<< (n + 1))) (p.bits + 1) hb] := by
    rw [subdivide, dif_neg h]
    simp only [hn0, show 63 - (p.bits * 2 + 1) = n by omega, show 63 - p.bits * 2 = n + 1 by omega, hn1, hn2]
  exact ⟨_, _, _, _, hsub, (quarter_hash hn rfl).1.mp hn0, (quarter_hash hn rfl).2.1.mp hn1,
    (quarter_hash hn rfl).2.2.1.mp hn2, (quarter_hash hn rfl).2.2.2.mp hn3⟩

theorem Quarter.bits_ne {j : ℕ} (h : Quarter p j c) : p.bits ≠ 32 := by
  have := c.bits_le
  have := h.bits_eq
  omega

theorem subdivide_eq_some {children : List GeoHash} : p.subdivide = some children ↔
    ∃ c0 c1 c2 c3, children = [c0, c1, c2, c3] ∧ Quarter p 0 c0 ∧ Quarter p 1 c1 ∧ Quarter p 2 c2 ∧ Quarter p 3 c3 := by
  constructor
  · intro h
    have h32 : p.bits ≠ 32 := by
      intro h32
      rw [subdivide, dif_pos h32] at h
      cases h
    obtain ⟨c0, c1, c2, c3, hsub, hq⟩ := subdivide_quarters h32
    rw [hsub] at h
    exact ⟨c0, c1, c2, c3, (Option.some.inj h).symm, hq⟩
  · rintro ⟨c0, c1, c2, c3, rfl, h0, h1, h2, h3⟩
    obtain ⟨d0, d1, d2, d3, hsub, hd0, hd1, hd2, hd3⟩ := subdivide_quarters h0.bits_ne
    rw [hsub, hd0.unique h0, hd1.unique h1, hd2.unique h2, hd3.unique h3]

/-- The hash of the last quarter is what `normalize` looks for. -/
theorem Quarter.xor_hash {c0 c1 c2 c3 : GeoHash} (h0 : Quarter p 0 c0) (h1 : Quarter p 1 c1) (h2 : Quarter p 2 c2)
    (h3 : Quarter p 3 c3) : c0.hash ^^^ c1.hash ^^^ c2.hash = c3.hash := by
  have hp := p.bits_le
  have h32 := h0.bits_ne
  obtain ⟨n, hn⟩ : ∃ n, n + 2 = 64 - 2 * p.bits := ⟨62 - 2 * p.bits, by omega⟩
  rw [(quarter_hash hn h0.bits_eq).1.mpr h0, (quarter_hash hn h1.bits_eq).2.1.mpr h1,
    (quarter_hash hn h2.bits_eq).2.2.1.mpr h2, (quarter_hash hn h3.bits_eq).2.2.2.mpr h3, xor_pair]

theorem Quarter.width_congr {j k : ℕ} (hc : Quarter p j c) (hd : Quarter p k d) : c.width = d.width := by
  unfold width
  rw [hc.bits_eq, hd.bits_eq]

theorem before_iff : cells.Before c d ↔ c.hash.toNat + c.width ≤ d.hash.toNat := by
  have hpos := c.width_pos
  show c.hashMax.toNat < d.hash.toNat ↔ _
  rw [toNat_hashMax]
  omega

theorem Quarter.before_iff {j k : ℕ} (hc : Quarter p j c) (hd : Quarter p k d) : cells.Before c d ↔ j < k := by
  rw [GeoHash.before_iff, hc.hash_eq, hd.hash_eq, ← hc.width_congr hd]
  have hpos := c.width_pos
  constructor
  · intro h
    have hlt : j * c.width < k * c.width := by omega
    exact Nat.lt_of_mul_lt_mul_right hlt
  · intro h
    have hle : (j + 1) * c.width ≤ k * c.width := Nat.mul_le_mul_right _ h
    rw [Nat.succ_mul] at hle
    omega

theorem Quarter.touches {j : ℕ} (hc : Quarter p j c) (hd : Quarter p (j + 1) d) :
    c.hash.toNat + c.width = d.hash.toNat := by
  rw [hc.hash_eq, hd.hash_eq, ← hc.width_congr hd, Nat.succ_mul]
  omega

theorem Quarter.ne {j k : ℕ} (hc : Quarter p j c) (hd : Quarter p k d) (h : j < k) : c ≠ d := by
  rintro rfl
  exact absurd (Nested.Inside.refl _) ((hc.before_iff hd).mpr h).not_inside

theorem Quarter.inside {j : ℕ} (h : Quarter p j c) (hj : j < 4) : cells.Inside c p := by
  have hc := c.width_pos
  have hle : j * c.width ≤ 3 * c.width := Nat.mul_le_mul_right _ (by omega)
  rw [inside_iff, h.hash_eq, h.width_eq]
  omega

theorem mem_keys {k : ℕ} : k ∈ cells.keys c ↔ c.hash.toNat ≤ k ∧ k < c.hash.toNat + c.width := by
  have hpos := c.width_pos
  show c.hashMin.toNat ≤ k ∧ k ≤ c.hashMax.toNat ↔ _
  rw [toNat_hashMax, hashMin]
  omega

theorem Quarter.keys_eq {c0 c1 c2 c3 : GeoHash} (h0 : Quarter p 0 c0) (h1 : Quarter p 1 c1) (h2 : Quarter p 2 c2)
    (h3 : Quarter p 3 c3) : cells.covered [c0, c1, c2, c3] = cells.keys p := by
  ext k
  simp only [Nested.covered, Set.mem_setOf_eq, List.mem_cons, List.not_mem_nil, or_false, exists_eq_or_imp,
    exists_eq_left, mem_keys, h0.width_eq]
  rw [h0.hash_eq, h1.hash_eq, h2.hash_eq, h3.hash_eq, ← h0.width_congr h1, ← h0.width_congr h2, ← h0.width_congr h3]
  omega

/-- A cell alone at the root covers every key, so one with a cell before or after it has a parent. -/
theorem parent_of_before (h : cells.Before c d) : (∃ p, c.parent = some p) ∧ ∃ p, d.parent = some p := by
  rw [GeoHash.before_iff] at h
  have hd := d.hash.isLt
  have hroot : ∀ {e : GeoHash}, e.bits = 0 → e.width = 2 ^ 64 := fun he => by rw [width, he]
  have hc0 : ¬ c.bits = 0 := fun h0 => by
    rw [hroot h0] at h
    omega
  have hd0 : ¬ d.bits = 0 := fun h0 => by
    obtain ⟨m, hm⟩ := d.low_clear
    change d.hash.toNat = d.width * m at hm
    rw [hroot h0] at hm
    have hpos := c.width_pos
    have hm0 : m = 0 := by omega
    rw [hm0] at hm
    omega
  unfold parent
  rw [dif_neg hc0, dif_neg hd0]
  exact ⟨⟨_, rfl⟩, ⟨_, rfl⟩⟩

/-! ## Order -/

theorem isLE_cmp : (cmp c d).isLE = true ↔ cells.Ahead c d := by
  have hle : c.hashMax.toNat ≥ d.hashMax.toNat ↔ c.hash.toNat + c.width - 1 ≥ d.hash.toNat + d.width - 1 := by
    rw [toNat_hashMax, toNat_hashMax]
  show _ ↔ c.hash.toNat < d.hash.toNat ∨ c.hash.toNat = d.hash.toNat ∧ d.hashMax.toNat ≤ c.hashMax.toNat
  have hc := c.width_pos
  have hd := d.width_pos
  have hbits : c.hash.toNat = d.hash.toNat → (d.hashMax.toNat ≤ c.hashMax.toNat ↔ c.bits ≤ d.bits) := by
    intro heq
    rw [← width_le_iff, toNat_hashMax, toNat_hashMax]
    omega
  unfold cmp
  rcases Nat.lt_trichotomy c.hash.toNat d.hash.toNat with h | h | h
  · rw [Nat.compare_eq_lt.mpr h]
    simp [Ordering.then, h]
  · rw [Nat.compare_eq_eq.mpr h, hbits h]
    simp [Ordering.then, h, Nat.isLE_compare]
  · rw [Nat.compare_eq_gt.mpr h]
    simp [Ordering.then]
    omega

theorem cmp_eq_lt : cmp c d = .lt ↔ ¬ cells.Ahead d c := by
  have hswap : cmp c d = (cmp d c).swap := by
    rw [cmp, cmp, Ordering.swap_then, Nat.compare_swap, Nat.compare_swap]
  rw [← isLE_cmp, hswap]
  cases cmp d c <;> simp [Ordering.swap, Ordering.isLE]

end GeoHash

end Secantus.Geohash
