/-
  `geohash2d.rs`: the words of a geohash. Spreading the bits of an axis with zeros between them and collecting them
  again, and the masks of the first pairs.

  A round of the spreading halves the blocks: where the bits stood in blocks of `2 * s` at every `4 * s`, they stand in
  blocks of `s` at every `2 * s` (`Spaced.spread`), and a round of the collecting does the reverse (`Spaced.gather`).
-/
import Mathlib.Data.Nat.Bitwise
import Mathlib.Tactic.Ring

namespace Secantus.Geohash

/-! ## Spreading and collecting -/

def interleaveWithZeros (input : BitVec 32) : BitVec 64 :=
  let word := input.setWidth 64
  let word := (word ^^^ word <<< 16) &&& 0x0000ffff0000ffff#64
  let word := (word ^^^ word <<< 8) &&& 0x00ff00ff00ff00ff#64
  let word := (word ^^^ word <<< 4) &&& 0x0f0f0f0f0f0f0f0f#64
  let word := (word ^^^ word <<< 2) &&& 0x3333333333333333#64
  let word := (word ^^^ word <<< 1) &&& 0x5555555555555555#64
  word

def deinterleaveZeros (input : BitVec 64) : BitVec 32 :=
  let word := input &&& 0x5555555555555555#64
  let word := (word ^^^ word >>> 1) &&& 0x3333333333333333#64
  let word := (word ^^^ word >>> 2) &&& 0x0f0f0f0f0f0f0f0f#64
  let word := (word ^^^ word >>> 4) &&& 0x00ff00ff00ff00ff#64
  let word := (word ^^^ word >>> 8) &&& 0x0000ffff0000ffff#64
  let word := (word ^^^ word >>> 16) &&& 0x00000000ffffffff#64
  word.setWidth 32

/-- The bits of `f` in blocks of `s`, one at every `2 * s`, zeros between them. -/
def Spaced (s : ℕ) (f : ℕ → Bool) (word : BitVec 64) : Prop :=
  ∀ i < 64, word.getLsbD i = (decide (i % (2 * s) < s) && f (i / (2 * s) * s + i % (2 * s)))

/-- The ones of the mask of a round. -/
def Blocks (s : ℕ) (mask : BitVec 64) : Prop := ∀ i < 64, mask.getLsbD i = decide (i % (2 * s) < s)

variable {s : ℕ} {f : ℕ → Bool} {word mask : BitVec 64}

/-- Where `i` stands in a block of `2 * s` says where it stands in a block of `s`. -/
theorem halves (hs : 0 < s) {i q r : ℕ} (hi : i = 2 * (2 * s) * q + r) (hr : r < 2 * (2 * s)) :
    (r < 2 * s ∧ i / (2 * s) = 2 * q ∧ i % (2 * s) = r) ∨
      (2 * s ≤ r ∧ i / (2 * s) = 2 * q + 1 ∧ i % (2 * s) = r - 2 * s) := by
  have h2 : 0 < 2 * s := by omega
  rcases Nat.lt_or_ge r (2 * s) with h | h
  · exact Or.inl ⟨h, (Nat.div_mod_unique h2).mpr ⟨by rw [hi]; ring, h⟩⟩
  · refine Or.inr ⟨h, (Nat.div_mod_unique h2).mpr ⟨?_, by omega⟩⟩
    have hring : 2 * s * (2 * q + 1) = 2 * (2 * s) * q + 2 * s := by ring
    omega

theorem place (hs : 0 < s) {i q r : ℕ} (hi : i = 2 * s * q + r) (hr : r < 2 * s) : i / (2 * s) = q ∧ i % (2 * s) = r :=
  (Nat.div_mod_unique (by omega)).mpr ⟨by omega, hr⟩

theorem Spaced.spread (hs : 0 < s) (h : Spaced (2 * s) f word) (hmask : Blocks s mask) :
    Spaced s f ((word ^^^ word <<< s) &&& mask) := by
  intro i hi
  obtain ⟨q, r, hiq, hr⟩ : ∃ q r, i = 2 * (2 * s) * q + r ∧ r < 2 * (2 * s) :=
    ⟨_, _, (Nat.div_add_mod i (2 * (2 * s))).symm, Nat.mod_lt _ (by omega)⟩
  obtain ⟨hdiv, hmod⟩ := place (s := 2 * s) (by omega) hiq hr
  have hword : word.getLsbD i = (decide (r < 2 * s) && f (q * (2 * s) + r)) := by rw [h i hi, hdiv, hmod]
  -- The bit `s` below is one of the same block of `4 * s`, or a zero of the block before.
  have hbelow : s ≤ i → word.getLsbD (i - s) =
      (decide (s ≤ r ∧ r < 3 * s) && f (q * (2 * s) + (r - s))) := by
    intro hsi
    rw [h (i - s) (by omega)]
    rcases Nat.lt_or_ge r s with hrs | hrs
    · obtain ⟨q, rfl⟩ : ∃ p, q = p + 1 := ⟨q - 1, by
        rcases Nat.eq_zero_or_pos q with rfl | hq
        · omega
        · omega⟩
      have hring : 2 * (2 * s) * (q + 1) = 2 * (2 * s) * q + 4 * s := by ring
      obtain ⟨-, hm⟩ := place (s := 2 * s) (i := i - s) (q := q) (r := r + 3 * s) (by omega) (by omega) (by omega)
      rw [hm, decide_eq_false (by omega), decide_eq_false (by omega), Bool.false_and, Bool.false_and]
    · obtain ⟨hd, hm⟩ := place (s := 2 * s) (i := i - s) (q := q) (r := r - s) (by omega) (by omega) (by omega)
      rw [hd, hm]
      congr 1
      rw [decide_eq_decide]
      omega
  rw [BitVec.getLsbD_and, BitVec.getLsbD_xor, BitVec.getLsbD_shiftLeft, hmask i hi, hword, decide_eq_true hi,
    Bool.true_and, Bool.and_comm]
  rcases halves hs hiq hr with ⟨hlow, hd, hm⟩ | ⟨hhigh, hd, hm⟩
  · rw [hd, hm, show 2 * q * s + r = q * (2 * s) + r by ring, decide_eq_true hlow, Bool.true_and]
    by_cases hrs : r < s
    · have hzero : (!decide (i < s) && word.getLsbD (i - s)) = false := by
        rcases Nat.lt_or_ge i s with his | his
        · simp [his]
        · rw [hbelow his, decide_eq_false (by omega : ¬ (s ≤ r ∧ r < 3 * s)), Bool.false_and, Bool.and_false]
      rw [hzero, Bool.xor_false]
    · simp [hrs]
  · rw [hd, hm, show (2 * q + 1) * s + (r - 2 * s) = q * (2 * s) + (s + (r - 2 * s)) by ring,
      show s + (r - 2 * s) = r - s by omega, decide_eq_false (by omega : ¬ r < 2 * s), Bool.false_and, Bool.false_xor]
    have his : s ≤ i := by
      have : 0 ≤ 2 * (2 * s) * q := Nat.zero_le _
      omega
    rw [hbelow his, decide_eq_false (by omega : ¬ i < s), Bool.not_false, Bool.true_and]
    by_cases hrs : r - 2 * s < s
    · rw [decide_eq_true (by omega : s ≤ r ∧ r < 3 * s), Bool.true_and]
    · simp [hrs]

theorem Spaced.gather (hs : 0 < s) (h64 : 2 * (2 * s) ∣ 64) (h : Spaced s f word) (hmask : Blocks (2 * s) mask) :
    Spaced (2 * s) f ((word ^^^ word >>> s) &&& mask) := by
  intro i hi
  obtain ⟨q, r, hiq, hr⟩ : ∃ q r, i = 2 * (2 * s) * q + r ∧ r < 2 * (2 * s) :=
    ⟨_, _, (Nat.div_add_mod i (2 * (2 * s))).symm, Nat.mod_lt _ (by omega)⟩
  obtain ⟨hdiv, hmod⟩ := place (s := 2 * s) (by omega) hiq hr
  rw [BitVec.getLsbD_and, BitVec.getLsbD_xor, BitVec.getLsbD_ushiftRight, hmask i hi, hdiv, hmod, Bool.and_comm]
  by_cases hr2 : r < 2 * s
  · have hin : s + i < 64 := by
      obtain ⟨m, hm⟩ := h64
      have hqm : q < m := by
        rcases Nat.lt_or_ge q m with hlt | hge
        · exact hlt
        · have hle := Nat.mul_le_mul_left (2 * (2 * s)) hge
          omega
      have hle : 2 * (2 * s) * (q + 1) ≤ 2 * (2 * s) * m := Nat.mul_le_mul_left _ hqm
      rw [Nat.mul_succ] at hle
      omega
    have hring : 2 * s * (2 * q) = 2 * (2 * s) * q := by ring
    have hring' : 2 * s * (2 * q + 1) = 2 * (2 * s) * q + 2 * s := by ring
    obtain ⟨hd, hm⟩ := place (i := i) (q := 2 * q) hs (by omega) hr2
    rw [decide_eq_true hr2, Bool.true_and, Bool.true_and, h i hi, h (s + i) hin, hd, hm]
    by_cases hrs : r < s
    · obtain ⟨-, hm'⟩ := place (i := s + i) (q := 2 * q) (r := s + r) hs (by omega) (by omega)
      rw [hm', decide_eq_true hrs, decide_eq_false (by omega : ¬ s + r < s), Bool.false_and, Bool.xor_false,
        Bool.true_and, show 2 * q * s + r = q * (2 * s) + r by ring]
    · obtain ⟨hd', hm'⟩ := place (i := s + i) (q := 2 * q + 1) (r := r - s) hs (by omega) (by omega)
      rw [hd', hm', decide_eq_false hrs, decide_eq_true (by omega : r - s < s), Bool.false_and, Bool.false_xor,
        Bool.true_and, show (2 * q + 1) * s + (r - s) = q * (2 * s) + (s + (r - s)) by ring,
        show s + (r - s) = r by omega]
  · rw [decide_eq_false hr2, Bool.false_and, Bool.false_and]

/-! The masks of the rounds. -/

theorem blocks_masks : Blocks 1 0x5555555555555555#64 ∧ Blocks 2 0x3333333333333333#64 ∧ Blocks 4 0x0f0f0f0f0f0f0f0f#64 ∧
    Blocks 8 0x00ff00ff00ff00ff#64 ∧ Blocks 16 0x0000ffff0000ffff#64 ∧ Blocks 32 0x00000000ffffffff#64 := by
  unfold Blocks
  decide

theorem getLsbD_interleaveWithZeros (x : BitVec 32) {i : ℕ} (hi : i < 64) :
    (interleaveWithZeros x).getLsbD i = (decide (i % 2 = 0) && x.getLsbD (i / 2)) := by
  obtain ⟨h1, h2, h4, h8, h16, -⟩ := blocks_masks
  have h : Spaced 32 x.getLsbD (x.setWidth 64) := by
    intro i hi
    rw [BitVec.getLsbD_setWidth, decide_eq_true hi, Bool.true_and]
    rcases Nat.lt_or_ge i 32 with h32 | h32
    · rw [show i / (2 * 32) * 32 + i % (2 * 32) = i by omega, decide_eq_true (by omega), Bool.true_and]
    · rw [BitVec.getLsbD_of_ge _ _ h32, decide_eq_false (by omega), Bool.false_and]
  have hall := ((((h.spread (by omega) h16).spread (s := 8) (by omega) h8).spread (s := 4) (by omega) h4).spread (s := 2)
    (by omega) h2).spread (s := 1) (by omega) h1
  rw [interleaveWithZeros, hall i hi]
  rcases Nat.mod_two_eq_zero_or_one i with h0 | h0
  · rw [show i / (2 * 1) * 1 + i % (2 * 1) = i / 2 by omega, decide_eq_true (by omega : i % (2 * 1) < 1),
      decide_eq_true h0]
  · rw [decide_eq_false (by omega : ¬ i % (2 * 1) < 1), decide_eq_false (by omega : ¬ i % 2 = 0), Bool.false_and,
      Bool.false_and]

theorem getLsbD_deinterleaveZeros (x : BitVec 64) {i : ℕ} (hi : i < 32) :
    (deinterleaveZeros x).getLsbD i = x.getLsbD (2 * i) := by
  obtain ⟨h1, h2, h4, h8, h16, h32⟩ := blocks_masks
  have h : Spaced 1 (fun i => x.getLsbD (2 * i)) (x &&& 0x5555555555555555#64) := by
    intro i hi
    rw [BitVec.getLsbD_and, h1 i hi, Bool.and_comm]
    rcases Nat.mod_two_eq_zero_or_one i with h0 | h0
    · show _ = (_ && x.getLsbD (2 * (i / (2 * 1) * 1 + i % (2 * 1))))
      rw [show 2 * (i / (2 * 1) * 1 + i % (2 * 1)) = i by omega]
    · rw [decide_eq_false (by omega : ¬ i % (2 * 1) < 1), Bool.false_and, Bool.false_and]
  have hall := ((((h.gather (by omega) (by omega) h2).gather (s := 2) (by omega) (by omega) h4).gather (s := 4) (by omega)
    (by omega) h8).gather (s := 8) (by omega) (by omega) h16).gather (s := 16) (by omega) (by omega) h32
  rw [deinterleaveZeros, BitVec.getLsbD_setWidth, decide_eq_true hi, Bool.true_and, hall i (by omega),
    show i / (2 * (2 * 16)) * (2 * 16) + i % (2 * (2 * 16)) = i by omega, decide_eq_true (by omega), Bool.true_and]

/-! ## Masks -/

/-- The one bit of every second place from `top` down, for `bits` of them. -/
def everyOther (top bits : ℕ) : BitVec 64 := (List.range bits).foldl (fun acc i => acc ||| 1#64 <<< (top - 2 * i)) 0

/-- `allX[bits]`: the x bits of the first `bits` pairs. -/
def allX (bits : ℕ) : BitVec 64 := everyOther 63 bits

/-- `allY[bits]`: their y bits. -/
def allY (bits : ℕ) : BitVec 64 := everyOther 62 bits

theorem getLsbD_one_shiftLeft {n i : ℕ} (hi : i < 64) : (1#64 <<< n).getLsbD i = decide (i = n) := by
  rw [BitVec.getLsbD_shiftLeft, decide_eq_true hi, Bool.true_and, BitVec.getLsbD_one]
  by_cases h : i = n
  · simp [h]
  · simp only [h, decide_false]
    by_cases hlt : i < n
    · simp [hlt]
    · simp only [hlt, decide_false, Bool.not_false, Bool.true_and]
      rw [decide_eq_false (by omega : ¬ i - n = 0), Bool.and_false]

theorem getLsbD_everyOther {top bits i : ℕ} (hbits : 2 * bits ≤ top + 2) (hi : i < 64) :
    (everyOther top bits).getLsbD i = decide (i ≤ top ∧ top + 2 - 2 * bits ≤ i ∧ i % 2 = top % 2) := by
  induction bits with
  | zero =>
    have hnone : ¬ (i ≤ top ∧ top + 2 - 2 * 0 ≤ i ∧ i % 2 = top % 2) := by omega
    rw [decide_eq_false hnone]
    exact BitVec.getLsbD_zero
  | succ bits ih =>
    have hstep : everyOther top (bits + 1) = everyOther top bits ||| 1#64 <<< (top - 2 * bits) := by
      rw [everyOther, List.range_succ, List.foldl_append]
      rfl
    rw [hstep, BitVec.getLsbD_or, ih (by omega), getLsbD_one_shiftLeft hi, ← Bool.decide_or, decide_eq_decide]
    omega

theorem getLsbD_allX_or_allY {bits i : ℕ} (hbits : bits ≤ 32) (hi : i < 64) :
    (allX bits ||| allY bits).getLsbD i = decide (64 - 2 * bits ≤ i) := by
  rw [BitVec.getLsbD_or, allX, allY, getLsbD_everyOther (by omega) hi, getLsbD_everyOther (by omega) hi, ← Bool.decide_or,
    decide_eq_decide]
  omega

/-! What the masks do to the number a word is. -/

theorem toNat_eq_of_getLsbD {x : BitVec 64} {n : ℕ} (hn : n < 2 ^ 64) (h : ∀ i < 64, x.getLsbD i = n.testBit i) :
    x.toNat = n := by
  apply Nat.eq_of_testBit_eq
  intro i
  rw [BitVec.testBit_toNat]
  rcases Nat.lt_or_ge i 64 with hi | hi
  · exact h i hi
  · rw [BitVec.getLsbD_of_ge _ _ hi, Nat.testBit_lt_two_pow (lt_of_lt_of_le hn (Nat.pow_le_pow_right (by omega) hi))]

theorem testBit_cut (x n i : ℕ) : (x / 2 ^ n * 2 ^ n).testBit i = (decide (n ≤ i) && x.testBit i) := by
  rw [Nat.testBit_mul_two_pow]
  by_cases h : n ≤ i
  · rw [Nat.testBit_div_two_pow, show i - n + n = i by omega]
  · simp [h]

theorem toNat_one_shiftLeft {n : ℕ} (hn : n < 64) : (1#64 <<< n).toNat = 2 ^ n := by
  have hlt : 2 ^ n < 2 ^ 64 := Nat.pow_lt_pow_right (by omega) hn
  rw [BitVec.toNat_shiftLeft, Nat.shiftLeft_eq, BitVec.toNat_one (by omega), Nat.one_mul, Nat.mod_eq_of_lt hlt]

theorem toNat_one_shiftLeft_sub_one {n : ℕ} (hn : n < 64) : (1#64 <<< n - 1#64).toNat = 2 ^ n - 1 := by
  have hpos : 1 ≤ 2 ^ n := Nat.one_le_two_pow
  rw [BitVec.toNat_sub_of_le (by rw [BitVec.le_def, toNat_one_shiftLeft hn]; exact hpos), toNat_one_shiftLeft hn]
  rfl

theorem toNat_and_top {x mask : BitVec 64} {n : ℕ} (h : ∀ i < 64, mask.getLsbD i = decide (n ≤ i)) :
    (x &&& mask).toNat = x.toNat / 2 ^ n * 2 ^ n := by
  refine toNat_eq_of_getLsbD (lt_of_le_of_lt (Nat.div_mul_le_self _ _) x.isLt) fun i hi => ?_
  rw [testBit_cut, BitVec.getLsbD_and, h i hi, BitVec.testBit_toNat, Bool.and_comm]

theorem toNat_or_low {x low : BitVec 64} {n : ℕ} (hx : 2 ^ n ∣ x.toNat) (hlow : low.toNat < 2 ^ n) :
    (x ||| low).toNat = x.toNat + low.toNat := by
  obtain ⟨q, hq⟩ := hx
  rw [BitVec.toNat_or, hq, ← Nat.two_pow_add_eq_or_of_lt hlow]

/-- The four words a pair of bits makes of a word without low bits, as numbers. -/
theorem toNat_or_pair {x : BitVec 64} {n : ℕ} (hn : n + 1 < 64) (hx : 2 ^ (n + 2) ∣ x.toNat) :
    (x ||| 1#64 <<< n).toNat = x.toNat + 2 ^ n ∧ (x ||| 1#64 <<< (n + 1)).toNat = x.toNat + 2 * 2 ^ n ∧
      ((x ||| 1#64 <<< n) ||| (x ||| 1#64 <<< (n + 1))).toNat = x.toNat + 3 * 2 ^ n := by
  have hpos : 0 < 2 ^ n := Nat.two_pow_pos n
  have hlow : (1#64 <<< n).toNat < 2 ^ (n + 1) := by
    rw [toNat_one_shiftLeft (by omega), Nat.pow_succ]
    omega
  have hx1 : 2 ^ (n + 1) ∣ x.toNat := Nat.dvd_trans (Nat.pow_dvd_pow 2 (by omega)) hx
  have hhigh : (x ||| 1#64 <<< (n + 1)).toNat = x.toNat + 2 * 2 ^ n := by
    rw [toNat_or_low hx (by rw [toNat_one_shiftLeft hn, Nat.pow_succ, Nat.pow_succ]; omega), toNat_one_shiftLeft hn,
      Nat.pow_succ, Nat.mul_comm]
  refine ⟨by rw [toNat_or_low hx1 hlow, toNat_one_shiftLeft (by omega)], hhigh, ?_⟩
  have hor : (x ||| 1#64 <<< n) ||| (x ||| 1#64 <<< (n + 1)) = (x ||| 1#64 <<< (n + 1)) ||| 1#64 <<< n := by
    refine BitVec.eq_of_getLsbD_eq fun i hi => ?_
    simp only [BitVec.getLsbD_or]
    cases x.getLsbD i <;> simp [Bool.or_comm]
  have hx2 : 2 ^ (n + 1) ∣ (x ||| 1#64 <<< (n + 1)).toNat := by
    rw [hhigh]
    exact (Nat.dvd_add_right hx1).mpr ⟨1, by rw [Nat.pow_succ]; ring⟩
  rw [hor, toNat_or_low hx2 hlow, hhigh, toNat_one_shiftLeft (by omega)]
  ring

theorem xor_pair (x : BitVec 64) (n : ℕ) :
    x ^^^ (x ||| 1#64 <<< n) ^^^ (x ||| 1#64 <<< (n + 1)) = (x ||| 1#64 <<< n) ||| (x ||| 1#64 <<< (n + 1)) := by
  refine BitVec.eq_of_getLsbD_eq fun i hi => ?_
  simp only [BitVec.getLsbD_xor, BitVec.getLsbD_or, getLsbD_one_shiftLeft hi]
  cases x.getLsbD i
  · by_cases h : i = n
    · have h' : ¬ i = n + 1 := by omega
      simp [h]
    · simp [h]
  · simp

theorem toNat_ones_below {low : BitVec 64} {n : ℕ} (hn : n ≤ 64) (h : ∀ i < 64, low.getLsbD i = decide (i < n)) :
    low.toNat = 2 ^ n - 1 := by
  have hle : 2 ^ n ≤ 2 ^ 64 := Nat.pow_le_pow_right (by omega) hn
  refine toNat_eq_of_getLsbD (by omega) fun i hi => ?_
  rw [h i hi, Nat.testBit_two_pow_sub_one]

/-- Words that differ in no bit from `n` up, as the signed shift of their difference sees it. -/
theorem sshiftRight_xor_eq_zero {x y : BitVec 64} {n : ℕ} (hn : n < 64) :
    (x ^^^ y).sshiftRight n = 0#64 ↔ x.toNat / 2 ^ n = y.toNat / 2 ^ n := by
  have hshift : (x ^^^ y).sshiftRight n = 0#64 ↔ (x ^^^ y) >>> n = 0#64 := by
    constructor <;> intro h
    · refine BitVec.eq_of_getLsbD_eq fun i hi => ?_
      rw [BitVec.getLsbD_ushiftRight, BitVec.getLsbD_zero]
      rcases Nat.lt_or_ge (n + i) 64 with hlt | hge
      · have hbit : ((x ^^^ y).sshiftRight n).getLsbD i = false := by rw [h, BitVec.getLsbD_zero]
        rw [BitVec.getLsbD_sshiftRight, if_pos hlt, decide_eq_false (by omega : ¬ 64 ≤ i), Bool.not_false,
          Bool.true_and] at hbit
        exact hbit
      · exact BitVec.getLsbD_of_ge _ _ hge
    · have hbit : ∀ i, (x ^^^ y).getLsbD (n + i) = false := fun i => by
        rw [← BitVec.getLsbD_ushiftRight, h, BitVec.getLsbD_zero]
      refine BitVec.eq_of_getLsbD_eq fun i hi => ?_
      rw [BitVec.getLsbD_sshiftRight, BitVec.getLsbD_zero, hbit, BitVec.msb_eq_getLsbD_last,
        show 64 - 1 = n + (63 - n) by omega, hbit]
      simp
  rw [hshift, BitVec.ushiftRight_xor_distrib, BitVec.xor_eq_zero_iff, ← BitVec.toNat_inj, BitVec.toNat_ushiftRight,
    BitVec.toNat_ushiftRight, Nat.shiftRight_eq_div_pow, Nat.shiftRight_eq_div_pow]

end Secantus.Geohash
