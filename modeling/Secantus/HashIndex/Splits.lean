/-
  A hash index's metapage (hash_index.rs): which bucket a hash falls in, as the index grows bucket by bucket.

  `Level` is the invariant: the masks are one less than two consecutive powers of two, and the highest
  bucket lies between them. A split takes the hashes of its new bucket from its old one, and leaves every
  other hash where it is (`bucket_insert`).

  Predicate locks on a hash index's buckets while the buckets split (hash_index.rs, `hash_insert_versions`;
  serializable.rs, `ssi_hash_scan`).

  A scan reads the bucket of a hash and later locks its page. An insert reads the bucket, checks its page,
  counts itself in the metapage, which may split a bucket, and then has the locks of the old page copied to
  the new one. Between the last two a lock is only owed to the new page (`Owed`): every lock is held where
  its hash is, or owed there through copies that have still to be made.
-/
import Secantus.Ssi.Running
import Mathlib.Data.Nat.Bitwise
import Mathlib.Data.Nat.Log
import Mathlib.Data.Rat.Floor
import Mathlib.Logic.Relation

namespace Secantus.HashIndex

/-- `u32::next_power_of_two`. -/
def nextPowerOfTwo (n : ℕ) : ℕ := 2 ^ Nat.clog 2 n

/-- `pg_ceil_log2_32`. -/
def ceilLog2 (n : ℕ) : ℕ := Nat.clog 2 n

def splitpointPhaseBits : ℕ := 2
def splitpointPhaseMask : ℕ := (1 <<< splitpointPhaseBits) - 1
def splitpointGroupsWithOnePhase : ℕ := 10

/-- `_hash_spareindex`. -/
def spareIndex (numBucket : ℕ) : ℕ :=
  let group := ceilLog2 numBucket
  if group < splitpointGroupsWithOnePhase then group
  else
    splitpointGroupsWithOnePhase + ((group - splitpointGroupsWithOnePhase) <<< splitpointPhaseBits) +
      (((numBucket - 1) >>> (group - (splitpointPhaseBits + 1))) &&& splitpointPhaseMask)

/-- `_hash_get_totalbuckets`. -/
def totalBuckets (phase : ℕ) : ℕ :=
  if phase < splitpointGroupsWithOnePhase then 1 <<< phase
  else
    let group := splitpointGroupsWithOnePhase +
      ((phase - splitpointGroupsWithOnePhase) >>> splitpointPhaseBits)
    let within := ((phase - splitpointGroupsWithOnePhase) &&& splitpointPhaseMask) + 1
    (1 <<< (group - 1)) + ((1 <<< (group - 1)) >>> splitpointPhaseBits) * within

/-- The metapage's bucket fields. -/
structure Meta where
  maxbucket : ℕ
  highmask : ℕ
  lowmask : ℕ
  ntuples : ℕ
  ffactor : ℕ
  deriving DecidableEq

/-- A bucket's page, as SSI names it. -/
def bucketPage (bucket : ℕ) : ℕ := bucket + 1

namespace Meta

/-- How many buckets an index starts with (`Meta::init`). -/
def numBuckets (numTuples : ℚ) (ffactor : ℕ) : ℕ :=
  let d := numTuples / ffactor
  if d ≤ 2 then 2
  else if 0x40000000 ≤ d then 0x40000000
  else totalBuckets (spareIndex ⌊d⌋₊)

/-- `_hash_init` for `numTuples` estimated rows at `fillfactor`. -/
def init (numTuples : ℚ) (fillfactor : ℕ) : Meta :=
  let ffactor := max (8192 * fillfactor / 100 / (8 + 8 + 4)) 10
  let buckets := numBuckets numTuples ffactor
  let highmask := nextPowerOfTwo (buckets + 1) - 1
  { maxbucket := buckets - 1
    highmask
    lowmask := highmask >>> 1
    ntuples := 0
    ffactor }

/-- `_hash_hashkey2bucket`. -/
def bucket (m : Meta) (hashkey : ℕ) : ℕ :=
  let b := hashkey &&& m.highmask
  if m.maxbucket < b then b &&& m.lowmask else b

/-- One insert (`_hash_doinsert`), and the split's old and new bucket if it makes one
    (`_hash_expandtable`). -/
def insert (m : Meta) : Meta × Option (ℕ × ℕ) :=
  let m := { m with ntuples := m.ntuples + 1 }
  if m.ntuples ≤ m.ffactor * (m.maxbucket + 1) ∨ 0x7FFFFFFE ≤ m.maxbucket then (m, none)
  else
    let new := m.maxbucket + 1
    let old := new &&& m.lowmask
    if m.highmask < new then
      ({ m with maxbucket := new, lowmask := m.highmask, highmask := new ||| m.highmask }, some (old, new))
    else ({ m with maxbucket := new }, some (old, new))

/-! ## The masks -/

/-- The masks are `2 ^ k - 1` and `2 ^ (k + 1) - 1`, with the highest bucket between them, and all of it
    in 31 bits. -/
structure Level (m : Meta) (k : ℕ) : Prop where
  low : m.lowmask = 2 ^ k - 1
  high : m.highmask = 2 ^ (k + 1) - 1
  le : 2 ^ k ≤ m.maxbucket + 1
  lt : m.maxbucket < 2 ^ (k + 1)
  fits : m.maxbucket < 2 ^ 31 - 1

/-- The splitpoint for `n` buckets is within the power of two that `n` is. -/
theorem totalBuckets_spareIndex_le {n k : ℕ} (h : n ≤ 2 ^ k) : totalBuckets (spareIndex n) ≤ 2 ^ k := by
  have hg : ceilLog2 n ≤ k := Nat.clog_le_of_le_pow h
  have hpow : 2 ^ ceilLog2 n ≤ 2 ^ k := Nat.pow_le_pow_right (by omega) hg
  unfold spareIndex
  simp only
  generalize ceilLog2 n = g at hpow
  split
  · rename_i hsmall
    unfold totalBuckets
    rw [if_pos hsmall, Nat.one_shiftLeft]
    exact hpow
  · rename_i hbig
    unfold splitpointGroupsWithOnePhase at hbig
    have hphase : ∀ x, x &&& splitpointPhaseMask = x % 4 := fun x => Nat.and_two_pow_sub_one_eq_mod x 2
    unfold totalBuckets splitpointGroupsWithOnePhase splitpointPhaseBits
    simp only [hphase, Nat.shiftLeft_eq, Nat.shiftRight_eq_div_pow, one_mul]
    have hy : (n - 1) / 2 ^ (g - (2 + 1)) % 4 < 4 := Nat.mod_lt _ (by omega)
    generalize (n - 1) / 2 ^ (g - (2 + 1)) % 4 = y at hy ⊢
    -- the phase is below four, so the group is read back from the spare index
    have hgroup : 10 + (10 + (g - 10) * 2 ^ 2 + y - 10) / 2 ^ 2 = g := by omega
    have hsame : 10 + (g - 10) * 2 ^ 2 + y - 10 = (g - 10) * 4 + y := by omega
    have hwithin : ((g - 10) * 4 + y) % 4 + 1 ≤ 4 := by omega
    rw [if_neg (by omega), hgroup, hsame]
    have hquarter : 2 ^ (g - 1) / 2 ^ 2 * (((g - 10) * 4 + y) % 4 + 1) ≤ 2 ^ (g - 1) :=
      (Nat.mul_le_mul_left _ hwithin).trans (Nat.div_mul_le_self _ 4)
    have hdouble : 2 ^ g = 2 ^ (g - 1) + 2 ^ (g - 1) := by
      rw [← Nat.two_mul, ← Nat.pow_succ']
      congr 1
      omega
    omega

theorem totalBuckets_pos (phase : ℕ) : 0 < totalBuckets phase := by
  unfold totalBuckets
  split
  · rw [Nat.one_shiftLeft]
    exact Nat.two_pow_pos phase
  · simp only [Nat.one_shiftLeft]
    exact Nat.add_pos_left (Nat.two_pow_pos _) _

theorem numBuckets_bounds (numTuples : ℚ) (ffactor : ℕ) :
    0 < numBuckets numTuples ffactor ∧ numBuckets numTuples ffactor ≤ 2 ^ 30 := by
  unfold numBuckets
  simp only
  split
  · omega
  · split
    · omega
    · rename_i hbig
      refine ⟨totalBuckets_pos _, totalBuckets_spareIndex_le ?_⟩
      have hlt : numTuples / ffactor < ((2 ^ 30 : ℕ) : ℚ) := by
        have := not_le.mp hbig
        norm_num at this ⊢
        exact this
      exact (Nat.floor_lt' (by omega)).mpr hlt |>.le

theorem level_init (numTuples : ℚ) (fillfactor : ℕ) : ∃ k, (init numTuples fillfactor).Level k := by
  unfold init
  simp only
  obtain ⟨hpos, hle⟩ := numBuckets_bounds numTuples (max (8192 * fillfactor / 100 / (8 + 8 + 4)) 10)
  generalize numBuckets numTuples _ = n at hpos hle
  have hclog : 0 < Nat.clog 2 (n + 1) := Nat.clog_pos (by omega) (by omega)
  obtain ⟨k, hk⟩ := Nat.exists_eq_succ_of_ne_zero hclog.ne'
  have hbelow : 2 ^ k < n + 1 := by
    have := Nat.pow_pred_clog_lt_self (b := 2) (by omega) (x := n + 1) (by omega)
    rwa [hk] at this
  have habove : n + 1 ≤ 2 ^ (k + 1) := by
    have := Nat.le_pow_clog (b := 2) (by omega) (n + 1)
    rwa [hk] at this
  have hmask : nextPowerOfTwo (n + 1) = 2 ^ (k + 1) := by rw [nextPowerOfTwo, hk]
  refine ⟨k, ?_, ?_, ?_, ?_, ?_⟩
  · show (nextPowerOfTwo (n + 1) - 1) >>> 1 = _
    rw [hmask, Nat.shiftRight_eq_div_pow, Nat.pow_succ]
    omega
  · show nextPowerOfTwo (n + 1) - 1 = _
    rw [hmask]
  · show 2 ^ k ≤ n - 1 + 1
    omega
  · show n - 1 < _
    omega
  · show n - 1 < _
    omega

/-! ## The buckets -/

theorem bucket_of_level {m : Meta} {k : ℕ} (h : m.Level k) (hash : ℕ) :
    m.bucket hash = if m.maxbucket < hash % 2 ^ (k + 1) then hash % 2 ^ k else hash % 2 ^ (k + 1) := by
  have hmod : hash % 2 ^ (k + 1) % 2 ^ k = hash % 2 ^ k :=
    Nat.mod_mod_of_dvd hash (Nat.pow_dvd_pow 2 (by omega))
  unfold bucket
  simp only
  rw [h.high, h.low, Nat.and_two_pow_sub_one_eq_mod, Nat.and_two_pow_sub_one_eq_mod, hmod]

theorem bucket_le_maxbucket {m : Meta} {k : ℕ} (h : m.Level k) (hash : ℕ) :
    m.bucket hash ≤ m.maxbucket := by
  rw [bucket_of_level h]
  split
  · have hlt := Nat.mod_lt hash (Nat.two_pow_pos k)
    have hle := h.le
    omega
  · omega

theorem insert_unsplit {m : Meta}
    (hnone : m.ntuples + 1 ≤ m.ffactor * (m.maxbucket + 1) ∨ 0x7FFFFFFE ≤ m.maxbucket) :
    m.insert = ({ m with ntuples := m.ntuples + 1 }, none) := by
  unfold insert
  simp only
  rw [if_pos hnone]

theorem insert_within {m : Meta}
    (hsplit : ¬ (m.ntuples + 1 ≤ m.ffactor * (m.maxbucket + 1) ∨ 0x7FFFFFFE ≤ m.maxbucket))
    (hin : m.maxbucket + 1 ≤ m.highmask) :
    m.insert = ({ m with ntuples := m.ntuples + 1, maxbucket := m.maxbucket + 1 },
      some ((m.maxbucket + 1) &&& m.lowmask, m.maxbucket + 1)) := by
  unfold insert
  simp only
  rw [if_neg hsplit, if_neg (not_lt.mpr hin)]

theorem insert_past {m : Meta} {k : ℕ} (h : m.Level k)
    (hsplit : ¬ (m.ntuples + 1 ≤ m.ffactor * (m.maxbucket + 1) ∨ 0x7FFFFFFE ≤ m.maxbucket))
    (hpast : m.highmask < m.maxbucket + 1) :
    m.insert = ({ m with
      ntuples := m.ntuples + 1, maxbucket := 2 ^ (k + 1), lowmask := 2 ^ (k + 1) - 1,
      highmask := 2 ^ (k + 2) - 1 }, some (0, 2 ^ (k + 1))) := by
  have hhigh := h.high
  have hlt := h.lt
  have hnew : m.maxbucket + 1 = 2 ^ (k + 1) := by omega
  have hold : (m.maxbucket + 1) &&& m.lowmask = 0 := by
    rw [h.low, Nat.and_two_pow_sub_one_eq_mod, hnew, Nat.pow_succ, Nat.mul_mod_right]
  have hor : (m.maxbucket + 1) ||| m.highmask = 2 ^ (k + 2) - 1 := by
    have hor := Nat.two_pow_add_eq_or_of_lt (i := k + 1) (b := m.highmask) (by omega) 1
    rw [hnew, ← mul_one (2 ^ (k + 1)), ← hor, hhigh, Nat.pow_succ 2 (k + 1)]
    omega
  unfold insert
  simp only
  rw [if_neg hsplit, if_pos hpast, hold, hor, hnew, hhigh]

/-- One insert keeps the masks, or moves both up a power when the new bucket is past them. -/
theorem level_insert {m : Meta} {k : ℕ} (h : m.Level k) : ∃ k', m.insert.1.Level k' := by
  have hlt := h.lt
  have hle := h.le
  have hhigh := h.high
  by_cases hnone : m.ntuples + 1 ≤ m.ffactor * (m.maxbucket + 1) ∨ 0x7FFFFFFE ≤ m.maxbucket
  · rw [insert_unsplit hnone]
    exact ⟨k, h.low, h.high, h.le, h.lt, h.fits⟩
  by_cases hpast : m.highmask < m.maxbucket + 1
  · rw [insert_past h hnone hpast]
    refine ⟨k + 1, rfl, rfl, ?_, ?_, ?_⟩
    · show 2 ^ (k + 1) ≤ 2 ^ (k + 1) + 1
      omega
    · exact Nat.pow_lt_pow_right (by omega) (by omega)
    · show 2 ^ (k + 1) < _
      omega
  · rw [insert_within hnone (not_lt.mp hpast)]
    refine ⟨k, h.low, h.high, ?_, ?_, ?_⟩
    · show 2 ^ k ≤ m.maxbucket + 1 + 1
      omega
    · show m.maxbucket + 1 < 2 ^ (k + 1)
      omega
    · show m.maxbucket + 1 < _
      omega

/-- What an insert does to the bucket of a hash: nothing, but for the hashes that its split takes from
    the old bucket to the new one. -/
theorem bucket_insert {m : Meta} {k : ℕ} (h : m.Level k) (hash : ℕ) :
    m.insert.1.bucket hash = m.bucket hash ∨
      ∃ old new, m.insert.2 = some (old, new) ∧ m.bucket hash = old ∧ m.insert.1.bucket hash = new := by
  have hbefore := bucket_of_level h hash
  have hhigh := h.high
  have hlt := h.lt
  by_cases hnone : m.ntuples + 1 ≤ m.ffactor * (m.maxbucket + 1) ∨ 0x7FFFFFFE ≤ m.maxbucket
  · rw [insert_unsplit hnone]
    exact Or.inl rfl
  by_cases hpast : m.highmask < m.maxbucket + 1
  · -- the masks move up: only the hashes of the new bucket leave bucket 0
    have hall : ¬ m.maxbucket < hash % 2 ^ (k + 1) := by
      have := Nat.mod_lt hash (Nat.two_pow_pos (k + 1))
      omega
    have hbelow : hash % 2 ^ (k + 2) % 2 ^ (k + 1) = hash % 2 ^ (k + 1) :=
      Nat.mod_mod_of_dvd hash (Nat.pow_dvd_pow 2 (by omega))
    rw [if_neg hall, ← hbelow] at hbefore
    rw [insert_past h hnone hpast, hbefore]
    unfold bucket
    simp only
    rw [Nat.and_two_pow_sub_one_eq_mod, Nat.and_two_pow_sub_one_eq_mod]
    rcases lt_trichotomy (hash % 2 ^ (k + 2)) (2 ^ (k + 1)) with hl | he | hg
    · rw [if_neg (by omega), Nat.mod_eq_of_lt hl]
      exact Or.inl rfl
    · rw [if_neg (by omega), he, Nat.mod_self]
      exact Or.inr ⟨0, 2 ^ (k + 1), rfl, rfl, rfl⟩
    · rw [if_pos hg]
      exact Or.inl rfl
  · have hmod : hash % 2 ^ (k + 1) % 2 ^ k = hash % 2 ^ k :=
      Nat.mod_mod_of_dvd hash (Nat.pow_dvd_pow 2 (by omega))
    rw [insert_within hnone (not_lt.mp hpast), hbefore]
    unfold bucket
    simp only
    rw [hhigh, h.low, Nat.and_two_pow_sub_one_eq_mod, Nat.and_two_pow_sub_one_eq_mod,
      Nat.and_two_pow_sub_one_eq_mod, hmod]
    rcases lt_trichotomy (hash % 2 ^ (k + 1)) (m.maxbucket + 1) with hl | he | hg
    · rw [if_neg (by omega), if_neg (by omega)]
      exact Or.inl rfl
    · rw [if_neg (by omega), if_pos (by omega), ← hmod, he]
      exact Or.inr ⟨_, _, rfl, rfl, rfl⟩
    · rw [if_pos hg, if_pos (show m.maxbucket < _ by omega)]
      exact Or.inl rfl

/-- `hashbuild` over `rows` rows, estimated at `estimate` when it starts. -/
def built (estimate : ℚ) (rows fillfactor : ℕ) : Meta :=
  (fun m : Meta => m.insert.1)^[rows] (init estimate fillfactor)

theorem level_built (estimate : ℚ) (rows fillfactor : ℕ) : ∃ k, (built estimate rows fillfactor).Level k := by
  induction rows with
  | zero => exact level_init estimate fillfactor
  | succ n ih =>
    obtain ⟨k, hk⟩ := ih
    unfold built at hk ⊢
    rw [Function.iterate_succ_apply']
    exact level_insert hk

end Meta

open Secantus Secantus.Library Secantus.Ssi

/-- What a session is in the middle of on the index. -/
inductive Activity where
  | idle
  /-- A scan, with the hashes it has read the buckets of, and those buckets, and not locked yet. -/
  | scanning (read : List (ℕ × ℕ))
  /-- An insert that has read its bucket, with the sessions that had locked for its hash by then. -/
  | inserting (hash bucket : ℕ) (before : List ℤ)
  /-- An insert that has checked its page. -/
  | checked
  /-- An insert that has split a bucket and not copied the locks yet. -/
  | splitting (old new : ℕ)
  deriving DecidableEq

/-- The SSI state, the metapage and the sessions, and the hashes that each session's transaction has locked
    for, which the code keeps nowhere. -/
structure World where
  ssi : State
  metapage : Meta
  activity : ℤ → Activity
  locked : List (ℤ × ℕ)

/-- The separate steps that sessions take, in any order. -/
inductive Move where
  | call (nextXid : ℕ) (c : Call)
  | scanRead (pid : ℤ) (hash : ℕ)
  | scanLock (pid : ℤ) (nextXid : ℕ)
  | insertRead (pid : ℤ) (hash : ℕ)
  | insertCheck (pid : ℤ)
  | insertMeta (pid : ℤ)
  | insertSplit (pid : ℤ)

/-- Whose step it is, for those on the index. -/
def Move.session : Move → Option ℤ
  | .call _ _ => none
  | .scanRead pid _ | .scanLock pid _ | .insertRead pid _ | .insertCheck pid | .insertMeta pid
  | .insertSplit pid => some pid

namespace Activity

/-- Without what a session locked in an earlier transaction. -/
def forget (pid : ℤ) : Activity → Activity
  | .inserting hash bucket before => .inserting hash bucket (before.filter (· ≠ pid))
  | activity => activity

theorem forget_eq_splitting {pid : ℤ} {a : Activity} {old new : ℕ} :
    a.forget pid = .splitting old new ↔ a = .splitting old new := by
  cases a <;> simp [forget]

theorem forget_eq_inserting {pid : ℤ} {a : Activity} {hash bucket : ℕ} {before : List ℤ}
    (h : a.forget pid = .inserting hash bucket before) :
    ∃ first, a = .inserting hash bucket first ∧ before = first.filter (· ≠ pid) := by
  cases a with
  | inserting hash' bucket' first =>
    injection h with hhash hbucket hbefore
    exact ⟨first, by rw [hhash, hbucket], hbefore.symm⟩
  | _ => cases h

/-- The bucket that a split is adding. -/
def into : Activity → Option ℕ
  | .splitting _ new => some new
  | _ => none

end Activity

namespace World

def start (metapage : Meta) : World := ⟨State.initial, metapage, fun _ => .idle, []⟩

def setActivity (w : World) (pid : ℤ) (a : Activity) : World :=
  { w with activity := fun p => if p = pid then a else w.activity p }

/-- A session registers a new transaction, which has locked nothing. -/
def renew (w : World) : Call → World
  | .register pid _ _ =>
    if w.ssi.mine pid = none then
      { w with
        activity := fun p => (w.activity p).forget pid
        locked := w.locked.filter (·.1 ≠ pid) }
    else w
  | _ => w

variable (db : ℕ) (oid : ℤ)

def step (w : World) : Move → World
  | .call nextXid c => { w.renew c with ssi := (w.ssi.call nextXid c).1 }
  | .scanRead pid hash =>
    match w.activity pid with
    | .idle => w.setActivity pid (.scanning [(hash, w.metapage.bucket hash)])
    | .scanning read => w.setActivity pid (.scanning (read ++ [(hash, w.metapage.bucket hash)]))
    | _ => w
  | .scanLock pid nextXid =>
    match w.activity pid with
    | .scanning ((hash, bucket) :: rest) =>
      { w.setActivity pid (if rest.isEmpty then .idle else .scanning rest) with
        ssi := w.ssi.lockTarget pid nextXid (.page db oid (bucketPage bucket))
        locked := (pid, hash) :: w.locked }
    | _ => w
  | .insertRead pid hash =>
    match w.activity pid with
    | .idle =>
      w.setActivity pid (.inserting hash (w.metapage.bucket hash)
        ((w.locked.filter (·.2 = hash)).map Prod.fst))
    | _ => w
  | .insertCheck pid =>
    match w.activity pid with
    | .inserting _ bucket _ =>
      let (ssi, failure) := w.ssi.conflictIn pid db oid none (some (bucketPage bucket))
      -- a conflict that must not stand ends the statement here
      { w.setActivity pid (if failure.isSome then .idle else .checked) with ssi }
    | _ => w
  | .insertMeta pid =>
    match w.activity pid with
    | .checked =>
      let (metapage, split) := w.metapage.insert
      let activity :=
        match split with
        | some (old, new) => .splitting old new
        | none => .idle
      { w.setActivity pid activity with metapage }
    | _ => w
  | .insertSplit pid =>
    match w.activity pid with
    | .splitting old new =>
      { w.setActivity pid .idle with ssi := w.ssi.pageSplit db oid (bucketPage old) (bucketPage new) }
    | _ => w

/-- The transaction's locks cover the bucket's page. -/
def Covered (w : World) (i bucket : ℕ) : Prop := w.ssi.Covers i (.page db oid (bucketPage bucket))

/-- A split whose locks are still to be copied. -/
def Pending (w : World) (old new : ℕ) : Prop := ∃ pid, w.activity pid = .splitting old new

/-- The copies still to be made bring a lock of the transaction to the bucket, or it is there. -/
def Owed (w : World) (i bucket : ℕ) : Prop :=
  ∃ old, w.Covered db oid i old ∧ Relation.ReflTransGen w.Pending old bucket

/-- No copy still to be made brings the bucket a lock that it lacks, of a running transaction. -/
def Settled (w : World) (bucket : ℕ) : Prop :=
  ∀ pid i, w.ssi.mine pid = some i → w.Owed db oid i bucket → w.Covered db oid i bucket

/-- A scan locks the bucket that it read while the locks of it are still to be copied to wherever its hash
    has gone. An insert checks, and has copied, a bucket that no lock is on its way to. -/
def Meets (w : World) : Move → Prop
  | .scanLock pid _ =>
    ∀ hash bucket rest, w.activity pid = .scanning ((hash, bucket) :: rest) →
      Relation.ReflTransGen w.Pending bucket (w.metapage.bucket hash) ∨
        ∀ i, w.ssi.mine pid = some i → w.Owed db oid i (w.metapage.bucket hash)
  | .insertCheck pid =>
    ∀ hash bucket before, w.activity pid = .inserting hash bucket before → w.Settled db oid bucket
  | .insertSplit pid => ∀ old new, w.activity pid = .splitting old new → w.Settled db oid old
  | _ => True

/-- The page that an insert checks carries the lock of every running transaction that had locked for the
    insert's hash before its bucket was read. -/
def ChecksLocked (w : World) : Move → Prop
  | .insertCheck pid =>
    ∀ hash bucket before, w.activity pid = .inserting hash bucket before →
      ∀ p i, p ∈ before → w.ssi.mine p = some i → w.Covered db oid i bucket
  | _ => True

/-- The invariant: whatever was locked is held or owed where its hash is, and where an insert of the hash
    is about to look. -/
structure Inv (w : World) : Prop where
  running : w.ssi.Running
  level : ∃ k, w.metapage.Level k
  locked : ∀ pid i, w.ssi.mine pid = some i → ∀ hash, (pid, hash) ∈ w.locked →
    w.Owed db oid i (w.metapage.bucket hash)
  before : ∀ ins hash bucket before, w.activity ins = .inserting hash bucket before →
    ∀ pid i, pid ∈ before → w.ssi.mine pid = some i → w.Owed db oid i bucket

variable {db oid}

theorem inv_start {m : Meta} (h : ∃ k, m.Level k) : Inv db oid (start m) where
  running := State.running_initial
  level := h
  locked pid i hi := by cases hi
  before ins hash bucket before h := by cases h

/-! ## What is owed stays owed -/

theorem activity_setActivity (w : World) (pid : ℤ) (a : Activity) (p : ℤ) :
    (w.setActivity pid a).activity p = if p = pid then a else w.activity p := rfl

/-- A session that is not splitting moves on: the copies still to be made are still to be made. -/
theorem pending_setActivity {w : World} {pid : ℤ} (h : ∀ old new, w.activity pid ≠ .splitting old new)
    (a : Activity) {old new : ℕ} (hp : w.Pending old new) : (w.setActivity pid a).Pending old new := by
  obtain ⟨p, hp⟩ := hp
  refine ⟨p, ?_⟩
  have hne : p ≠ pid := by
    rintro rfl
    exact h old new hp
  rw [activity_setActivity, if_neg hne]
  exact hp

theorem Owed.mono {w w' : World} {i i' bucket : ℕ}
    (hcov : ∀ b, w.Covered db oid i b → w'.Covered db oid i' b)
    (hpend : ∀ old new, w.Pending old new → w'.Pending old new) (h : w.Owed db oid i bucket) :
    w'.Owed db oid i' bucket := by
  obtain ⟨old, hold, hchain⟩ := h
  exact ⟨old, hcov old hold, Relation.ReflTransGen.mono hpend _ _ hchain⟩

theorem Owed.tail {w : World} {i old new : ℕ} (h : w.Owed db oid i old) (hp : w.Pending old new) :
    w.Owed db oid i new := by
  obtain ⟨first, hfirst, hchain⟩ := h
  exact ⟨first, hfirst, hchain.tail hp⟩

/-- A step that leaves the metapage as it is, and keeps what is owed: what it adds has to be owed. -/
theorem Inv.ofKept {w w' : World} (h : Inv db oid w) (hrun : w'.ssi.Running)
    (hmeta : w'.metapage = w.metapage) (hmine : ∀ p i, w'.ssi.mine p = some i → w.ssi.mine p = some i)
    (howed : ∀ p i b, w'.ssi.mine p = some i → w.Owed db oid i b → w'.Owed db oid i b)
    (hlocked : ∀ p i, w'.ssi.mine p = some i → ∀ hash, (p, hash) ∈ w'.locked →
      (p, hash) ∈ w.locked ∨ w'.Owed db oid i (w.metapage.bucket hash))
    (hact : ∀ ins hash bucket before, w'.activity ins = .inserting hash bucket before →
      w.activity ins = .inserting hash bucket before ∨
        (bucket = w.metapage.bucket hash ∧ ∀ p ∈ before, (p, hash) ∈ w.locked)) :
    Inv db oid w' where
  running := hrun
  level := hmeta ▸ h.level
  locked p i hi hash hh := by
    rw [hmeta]
    exact (hlocked p i hi hash hh).elim
      (fun hold => howed p i _ hi (h.locked p i (hmine p i hi) hash hold)) id
  before ins hash bucket before hins p i hb hi := by
    refine howed p i bucket hi ?_
    rcases hact ins hash bucket before hins with hold | ⟨rfl, hread⟩
    · exact h.before ins hash bucket before hold p i hb (hmine p i hi)
    · exact h.locked p i (hmine p i hi) hash (hread p hb)

theorem inserting_setActivity {w : World} {pid : ℤ} {a : Activity}
    (ha : ∀ hash bucket before, a ≠ .inserting hash bucket before) {ins : ℤ} {hash bucket : ℕ}
    {before : List ℤ} (h : (w.setActivity pid a).activity ins = .inserting hash bucket before) :
    w.activity ins = .inserting hash bucket before := by
  rw [activity_setActivity] at h
  split at h
  · exact absurd h (ha hash bucket before)
  · exact h

/-- A session moves on with nothing split and nothing locked. -/
theorem Inv.ofActivity {w : World} (h : Inv db oid w) {pid : ℤ} {a : Activity}
    (hnot : ∀ old new, w.activity pid ≠ .splitting old new)
    (ha : ∀ hash bucket before, a = .inserting hash bucket before →
      bucket = w.metapage.bucket hash ∧ ∀ p ∈ before, (p, hash) ∈ w.locked) :
    Inv db oid (w.setActivity pid a) := by
  refine h.ofKept h.running rfl (fun _ _ hi => hi) (fun _ _ _ _ ho => ?_) (fun _ _ _ _ hh => Or.inl hh)
    fun ins hash bucket before hins => ?_
  · refine Owed.mono ?_ ?_ ho
    · exact fun _ hc => hc
    · exact fun _ _ => pending_setActivity hnot a
  · rw [activity_setActivity] at hins
    split at hins
    · exact Or.inr (ha hash bucket before hins)
    · exact Or.inl hins

/-! ## The steps -/

/-- A call keeps the pages covered. -/
theorem covers_page_call {s : State} (h : s.Tracked) (nextXid : ℕ) {c : Call}
    (hreg : ∀ pid snap readOnly, c ≠ .register pid snap readOnly) {p : ℤ} {i : ℕ}
    (hi : (s.call nextXid c).1.mine p = some i) {rel : ℤ} {blk : ℕ}
    (hcov : s.Covers i (.page db rel blk)) : (s.call nextXid c).1.Covers i (.page db rel blk) := by
  refine (State.keepsCover_call h nextXid c hreg).covers p i hi _ (fun hw => ?_) hcov
  -- what a call writes is a tuple
  unfold Call.writes at hw
  split at hw
  · cases hw
  · cases hw
  · cases hw

theorem inv_call {w : World} (h : Inv db oid w) (nextXid : ℕ) (c : Call) :
    Inv db oid (w.step db oid (.call nextXid c)) := by
  have hrun := h.running.call nextXid c
  by_cases hreg : ∃ pid snap readOnly, c = .register pid snap readOnly
  · obtain ⟨pid, snap, readOnly, rfl⟩ := hreg
    have hadm := State.admitted_register h.running.tracked pid snap readOnly
    by_cases hnone : w.ssi.mine pid = none
    · have hstep : w.step db oid (.call nextXid (.register pid snap readOnly)) =
          { ssi := w.ssi.register pid snap readOnly
            metapage := w.metapage
            activity := fun p => (w.activity p).forget pid
            locked := w.locked.filter (·.1 ≠ pid) } := by
        unfold step renew
        simp only
        rw [if_pos hnone]
        rfl
      rw [hstep]
      have howed : ∀ p i b, p ≠ pid → (w.ssi.register pid snap readOnly).mine p = some i →
          w.Owed db oid i b → Owed db oid
            { ssi := w.ssi.register pid snap readOnly
              metapage := w.metapage
              activity := fun p => (w.activity p).forget pid
              locked := w.locked.filter (·.1 ≠ pid) } i b := by
        intro p i b hne hi ho
        have hold := (hadm.mine p i hi).resolve_right fun hp => hne hp.1
        refine Owed.mono ?_ ?_ ho
        · exact fun b hc => hadm.covers p i hold _ hc
        · rintro old new ⟨q, hq⟩
          exact ⟨q, Activity.forget_eq_splitting.mpr hq⟩
      refine ⟨hrun, h.level, fun p i hi hash hh => ?_, fun ins hash bucket before hins p i hb hi => ?_⟩
      · obtain ⟨hh, hp⟩ := List.mem_filter.mp hh
        have hp : p ≠ pid := of_decide_eq_true hp
        have hold := (hadm.mine p i hi).resolve_right fun hp' => hp hp'.1
        exact howed p i _ hp hi (h.locked p i hold hash hh)
      · have hins : (w.activity ins).forget pid = .inserting hash bucket before := hins
        obtain ⟨first, hfirst, rfl⟩ := Activity.forget_eq_inserting hins
        obtain ⟨hb, hp⟩ := List.mem_filter.mp hb
        have hp : p ≠ pid := of_decide_eq_true hp
        have hold := (hadm.mine p i hi).resolve_right fun hp' => hp hp'.1
        exact howed p i _ hp hi (h.before ins hash bucket first hfirst p i hb hold)
    · have hsame : w.ssi.register pid snap readOnly = w.ssi := by
        unfold State.register
        rw [if_pos (Option.isSome_iff_ne_none.mpr hnone)]
      have hstep : w.step db oid (.call nextXid (.register pid snap readOnly)) = w := by
        unfold step renew
        simp only
        rw [if_neg hnone]
        show { w with ssi := w.ssi.register pid snap readOnly } = w
        rw [hsame]
      rw [hstep]
      exact h
  · have hreg : ∀ pid snap readOnly, c ≠ .register pid snap readOnly :=
      fun pid snap readOnly heq => hreg ⟨pid, snap, readOnly, heq⟩
    have hkeep := State.keepsCover_call h.running.tracked nextXid c hreg
    have hstep : w.step db oid (.call nextXid c) = { w with ssi := (w.ssi.call nextXid c).1 } := by
      unfold step renew
      cases c with
      | register pid snap readOnly => exact absurd rfl (hreg pid snap readOnly)
      | _ => rfl
    rw [hstep]
    refine h.ofKept hrun rfl hkeep.mine (fun p i b hi ho => ?_) (fun _ _ _ _ hh => Or.inl hh)
      fun _ _ _ _ hins => Or.inl hins
    refine Owed.mono ?_ ?_ ho
    · exact fun b hc => covers_page_call h.running.tracked nextXid hreg hi hc
    · exact fun _ _ hp => hp

theorem inv_scanRead {w : World} (h : Inv db oid w) (pid : ℤ) (hash : ℕ) :
    Inv db oid (w.step db oid (.scanRead pid hash)) := by
  unfold step
  simp only
  split
  · rename_i hidle
    refine h.ofActivity (fun old new => ?_) fun hash bucket before ha => ?_
    · rw [hidle]
      intro hs
      cases hs
    · cases ha
  · rename_i read hread
    refine h.ofActivity (fun old new => ?_) fun hash bucket before ha => ?_
    · rw [hread]
      intro hs
      cases hs
    · cases ha
  · exact h

theorem inv_insertRead {w : World} (h : Inv db oid w) (pid : ℤ) (hash : ℕ) :
    Inv db oid (w.step db oid (.insertRead pid hash)) := by
  unfold step
  simp only
  split
  · rename_i hidle
    refine h.ofActivity (fun old new => ?_) fun hash' bucket before ha => ?_
    · rw [hidle]
      intro hs
      cases hs
    · injection ha with hhash hbucket hbefore
      subst hhash hbucket hbefore
      refine ⟨rfl, fun p hp => ?_⟩
      obtain ⟨e, he, rfl⟩ := List.mem_map.mp hp
      have hhash : e.2 = hash := of_decide_eq_true (List.mem_filter.mp he).2
      rw [← hhash]
      exact (List.mem_filter.mp he).1
  · exact h

theorem inv_scanLock {w : World} (h : Inv db oid w) {pid : ℤ} {nextXid : ℕ}
    (hmeets : w.Meets db oid (.scanLock pid nextXid)) :
    Inv db oid (w.step db oid (.scanLock pid nextXid)) := by
  unfold step
  simp only
  split
  · rename_i hash bucket rest hscan
    have hgone := hmeets hash bucket rest hscan
    have hkeep := State.keepsCover_lockTarget (D := fun _ _ => False) h.running.tracked pid nextXid
      (.page db oid (bucketPage bucket))
    have hrun := h.running.call nextXid (.lockPage pid db oid (bucketPage bucket))
    have hpend : ∀ old new, w.Pending old new →
        (w.setActivity pid (if rest.isEmpty then .idle else .scanning rest)).Pending old new := by
      intro old new
      refine pending_setActivity (fun old new => ?_) _
      rw [hscan]
      intro hs
      cases hs
    have howed : ∀ p i b, (w.ssi.lockTarget pid nextXid (.page db oid (bucketPage bucket))).mine p = some i →
        w.Owed db oid i b → Owed db oid
          { w.setActivity pid (if rest.isEmpty then .idle else .scanning rest) with
            ssi := w.ssi.lockTarget pid nextXid (.page db oid (bucketPage bucket))
            locked := (pid, hash) :: w.locked } i b := by
      intro p i b hi ho
      refine Owed.mono ?_ hpend ho
      exact fun b hc => hkeep.covers p i hi _ id hc
    refine h.ofKept hrun rfl hkeep.mine howed (fun p i hi hash' hh => ?_) fun ins hash' b before hins => ?_
    · rcases List.mem_cons.mp hh with heq | hh
      · injection heq with hp hhash
        subst hp hhash
        refine Or.inr ?_
        rcases hgone with hchain | hall
        · refine ⟨bucket, State.covers_lockTarget h.running.tracked hi, ?_⟩
          exact Relation.ReflTransGen.mono hpend _ _ hchain
        · exact howed p i _ hi (hall i (hkeep.mine p i hi))
      · exact Or.inl hh
    · refine Or.inl (inserting_setActivity (a := if rest.isEmpty then .idle else .scanning rest) ?_ hins)
      intro hash' b before ha
      split at ha
      · cases ha
      · cases ha
  · exact h

theorem inv_insertCheck {w : World} (h : Inv db oid w) (pid : ℤ) :
    Inv db oid (w.step db oid (.insertCheck pid)) := by
  unfold step
  simp only
  split
  · rename_i hash bucket before hins
    have hnot : ∀ q snap readOnly,
        Call.conflictIn pid db oid none (some (bucketPage bucket)) ≠ .register q snap readOnly := by
      intro q snap readOnly heq
      cases heq
    have hkeep := State.keepsCover_call h.running.tracked 0 _ hnot
    have hrun := h.running.call 0 (.conflictIn pid db oid none (some (bucketPage bucket)))
    refine h.ofKept hrun rfl hkeep.mine (fun p i b hi ho => ?_) (fun _ _ _ _ hh => Or.inl hh)
      fun ins hash' b' before' hins' => Or.inl ?_
    · refine Owed.mono ?_ ?_ ho
      · exact fun b hc => covers_page_call h.running.tracked 0 hnot hi hc
      · refine fun old new => pending_setActivity (fun old new => ?_) _
        rw [hins]
        intro hs
        cases hs
    · refine inserting_setActivity ?_ hins'
      intro hash' b before ha
      split at ha
      · cases ha
      · cases ha
  · exact h

/-- A split moves a hash along with a copy of the locks that is still to be made. -/
theorem inv_insertMeta {w : World} (h : Inv db oid w) (pid : ℤ) :
    Inv db oid (w.step db oid (.insertMeta pid)) := by
  unfold step
  simp only
  split
  · rename_i hchecked
    obtain ⟨k, hk⟩ := h.level
    generalize hact : (match w.metapage.insert.2 with
      | some (old, new) => Activity.splitting old new
      | none => .idle) = a
    have hnot : ∀ hash bucket before, a ≠ .inserting hash bucket before := by
      intro hash bucket before ha
      rw [ha] at hact
      split at hact
      · cases hact
      · cases hact
    have howed : ∀ i b, w.Owed db oid i b →
        Owed db oid { w.setActivity pid a with metapage := w.metapage.insert.1 } i b := by
      intro i b ho
      refine Owed.mono ?_ ?_ ho
      · exact fun _ hc => hc
      · refine fun old new => pending_setActivity (fun old new => ?_) _
        rw [hchecked]
        intro hs
        cases hs
    refine ⟨h.running, Meta.level_insert hk, fun p i hi hash hh => ?_,
      fun ins hash bucket before hins p i hb hi => ?_⟩
    · have ho := howed i _ (h.locked p i hi hash hh)
      rcases Meta.bucket_insert hk hash with hsame | ⟨old, new, hsplit, hold, hnew⟩
      · show Owed db oid _ i (w.metapage.insert.1.bucket hash)
        rw [hsame]
        exact ho
      · show Owed db oid _ i (w.metapage.insert.1.bucket hash)
        rw [hold] at ho
        rw [hnew]
        refine ho.tail ⟨pid, ?_⟩
        rw [hsplit] at hact
        show (w.setActivity pid a).activity pid = _
        rw [activity_setActivity, if_pos rfl]
        exact hact.symm
    · exact howed i _ (h.before ins hash bucket before (inserting_setActivity hnot hins) p i hb hi)
  · exact h

/-- The copy of a settled page's locks brings all that was owed through it. -/
theorem owed_insertSplit {w : World} (h : Inv db oid w) {pid : ℤ} {old new : ℕ}
    (hsplit : w.activity pid = .splitting old new) (hsettled : w.Settled db oid old) {p : ℤ} {i : ℕ}
    (hi : w.ssi.mine p = some i) {b : ℕ} (ho : w.Owed db oid i b) :
    Owed db oid { w.setActivity pid .idle with
      ssi := w.ssi.pageSplit db oid (bucketPage old) (bucketPage new) } i b := by
  obtain ⟨first, hfirst, hchain⟩ := ho
  have hsome := h.running.horizon p i hi
  have hgrow : ∀ b, w.Covered db oid i b → Covered db oid { w.setActivity pid .idle with
      ssi := w.ssi.pageSplit db oid (bucketPage old) (bucketPage new) } i b := by
    rintro b ⟨u, hu, hmem⟩
    exact ⟨u, hu, (State.mem_holders_pageSplit hsome db oid _ _ i u).mpr (Or.inl hmem)⟩
  induction hchain with
  | refl => exact ⟨first, hgrow first hfirst, Relation.ReflTransGen.refl⟩
  | tail hbefore hlast ih =>
    rename_i mid last
    obtain ⟨q, hq⟩ := hlast
    by_cases hqp : q = pid
    · -- the copy itself
      rw [hqp, hsplit] at hq
      injection hq with hmid hlast
      subst hmid hlast
      have hcov := hsettled p i hi ⟨first, hfirst, hbefore⟩
      exact ⟨new, State.covers_pageSplit h.running hi hcov, Relation.ReflTransGen.refl⟩
    · refine ih.tail ⟨q, ?_⟩
      show (w.setActivity pid .idle).activity q = _
      rw [activity_setActivity, if_neg hqp]
      exact hq

theorem inv_insertSplit {w : World} (h : Inv db oid w) {pid : ℤ}
    (hmeets : w.Meets db oid (.insertSplit pid)) : Inv db oid (w.step db oid (.insertSplit pid)) := by
  unfold step
  simp only
  split
  · rename_i old new hsplit
    have hkeep := State.keepsCover_pageSplit (D := fun _ _ => False) h.running.tracked db oid
      (bucketPage old) (bucketPage new)
    have hrun := h.running.call 0 (.pageSplit db oid (bucketPage old) (bucketPage new))
    refine h.ofKept hrun rfl hkeep.mine (fun p i b hi ho => ?_) (fun _ _ _ _ hh => Or.inl hh)
      fun ins hash b before hins => Or.inl ?_
    · exact owed_insertSplit h hsplit (hmeets old new hsplit) (hkeep.mine p i hi) ho
    · refine inserting_setActivity ?_ hins
      intro hash b before ha
      cases ha
  · exact h

theorem inv_step (w : World) (m : Move) (hmeets : w.Meets db oid m) (h : Inv db oid w) :
    Inv db oid (w.step db oid m) := by
  cases m with
  | call nextXid c => exact inv_call h nextXid c
  | scanRead pid hash => exact inv_scanRead h pid hash
  | scanLock pid nextXid => exact inv_scanLock h hmeets
  | insertRead pid hash => exact inv_insertRead h pid hash
  | insertCheck pid => exact inv_insertCheck h pid
  | insertMeta pid => exact inv_insertMeta h pid
  | insertSplit pid => exact inv_insertSplit h hmeets

/-! ## Every run -/

/-- In every run whose scans lock, whose inserts check and whose splits copy only what no lock is still on
    its way to, an insert checks a page that carries the lock of every running transaction that had locked
    for its hash before it read its bucket. A hash always falls in a bucket that there is, and a split only
    takes hashes from its old bucket to its new one. -/
theorem splits_carry_locks (db : ℕ) (oid : ℤ) (estimate : ℚ) (rows fillfactor : ℕ)
    (moves : List Move) (m : Move)
    (h : StepsMeet (step db oid) (Meets db oid) (start (Meta.built estimate rows fillfactor))
      (moves ++ [m])) :
    ChecksLocked db oid (moves.foldl (step db oid) (start (Meta.built estimate rows fillfactor))) m ∧
      ∀ n hash, let p := Meta.built estimate n fillfactor
        p.bucket hash ≤ p.maxbucket ∧
          (p.insert.1.bucket hash ≠ p.bucket hash →
            p.insert.2 = some (p.bucket hash, p.insert.1.bucket hash)) := by
  obtain ⟨hmoves, hm, -⟩ := (stepsMeet_append (step db oid) (Meets db oid) moves [m] _).mp h
  have hinv := run_invariant_of_meets (step db oid) (fun w m => inv_step w m) moves _ hmoves
    (inv_start (Meta.level_built estimate rows fillfactor))
  refine ⟨?_, fun n hash => ?_⟩
  · cases m with
    | insertCheck pid =>
      intro hash bucket before hins p i hb hi
      exact hm hash bucket before hins p i hi (hinv.before pid hash bucket before hins p i hb hi)
    | _ => exact trivial
  · obtain ⟨k, hk⟩ := Meta.level_built estimate n fillfactor
    refine ⟨Meta.bucket_le_maxbucket hk hash, fun hmoved => ?_⟩
    rcases Meta.bucket_insert hk hash with hsame | ⟨old, new, hsplit, hold, hnew⟩
    · exact absurd hsame hmoved
    · rw [hold, hnew]
      exact hsplit

/-- Three sessions at an index of two buckets, full: session 1 looks up hash 2, in bucket 0, session 2
    inserts hash 0, which splits bucket 0, and session 3 inserts hash 2, now in bucket 2. -/
def lookedUpAndSplit (copied : Bool) : List Move :=
  [.call 5 (.register 1 ⟨5, 5, []⟩ false), .call 5 (.register 2 ⟨5, 5, []⟩ false),
    .call 5 (.register 3 ⟨5, 5, []⟩ false), .scanRead 1 2, .scanLock 1 5, .insertRead 2 0, .insertCheck 2,
    .insertMeta 2] ++ (if copied then [.insertSplit 2] else []) ++ [.insertRead 3 2]

theorem idle_step {w : World} {m : Move} {pid : ℤ} (h : m.session ≠ some pid)
    (hw : w.activity pid = .idle) : (w.step db oid m).activity pid = .idle := by
  cases m with
  | call nextXid c =>
    show (w.renew c).activity pid = .idle
    unfold renew
    split
    · split
      · show (w.activity pid).forget _ = .idle
        rw [hw]
        rfl
      · exact hw
    · exact hw
  | _ p =>
    have hne : pid ≠ p := by
      rintro rfl
      exact h rfl
    unfold step
    simp only
    repeat' split
    all_goals first | exact hw | exact (if_neg hne).trans hw

theorem idle_run {moves : List Move} {pid : ℤ} (h : ∀ m ∈ moves, m.session ≠ some pid) {w : World}
    (hw : w.activity pid = .idle) : (moves.foldl (step db oid) w).activity pid = .idle := by
  induction moves generalizing w with
  | nil => exact hw
  | cons m moves ih =>
    exact ih (fun m hm => h m (List.mem_cons_of_mem _ hm)) (idle_step (h m List.mem_cons_self) hw)

/-- No lock is on its way to a bucket that none of the sessions in a run is splitting into. -/
theorem settled_run {m : Meta} (moves : List Move) (pids : List ℤ) {bucket : ℕ}
    (h : ∀ m ∈ moves, m.session ∈ none :: pids.map some)
    (hnone : ∀ pid ∈ pids, ((moves.foldl (step db oid) (start m)).activity pid).into ≠ some bucket) :
    Settled db oid (moves.foldl (step db oid) (start m)) bucket := by
  intro p i hi ho
  obtain ⟨first, hfirst, hchain⟩ := ho
  rcases Relation.ReflTransGen.cases_tail hchain with rfl | ⟨mid, -, pid, hpid⟩
  · exact hfirst
  · by_cases hmem : pid ∈ pids
    · refine absurd ?_ (hnone pid hmem)
      rw [hpid]
      rfl
    · have hother : ∀ m ∈ moves, m.session ≠ some pid := by
        intro m hm heq
        have hsession := h m hm
        rw [heq] at hsession
        exact hmem (by simpa using hsession)
      have hidle : (moves.foldl (step db oid) (start m)).activity pid = .idle := idle_run hother rfl
      rw [hidle] at hpid
      cases hpid

/-- With the locks copied, session 3 meets session 1's on the new bucket's page. -/
theorem splits_carry_locks_copied :
    StepsMeet (step 0 20) (Meets 0 20) (start (Meta.built 0 20 1)) (lookedUpAndSplit true ++ [.insertCheck 3]) ∧
      Covered 0 20 ((lookedUpAndSplit true).foldl (step 0 20) (start (Meta.built 0 20 1))) 0 2 := by
  have hmeets : StepsMeet (step 0 20) (Meets 0 20) (start (Meta.built 0 20 1))
      (lookedUpAndSplit true ++ [.insertCheck 3]) := by
    refine ⟨trivial, trivial, trivial, trivial, ?_, trivial, ?_, trivial, ?_, trivial, ?_, trivial⟩
    · intro hash bucket rest hscan
      have hact : (((lookedUpAndSplit true).take 4).foldl (step 0 20) (start (Meta.built 0 20 1))).activity 1 =
          .scanning [(2, 0)] := by decide +kernel
      injection hact.symm.trans hscan with hread
      injection hread with hread
      injection hread with hhash hbucket
      subst hhash hbucket
      have hsame : (((lookedUpAndSplit true).take 4).foldl (step 0 20)
          (start (Meta.built 0 20 1))).metapage.bucket 2 = 0 := by decide +kernel
      refine Or.inl ?_
      show Relation.ReflTransGen _ 0 ((((lookedUpAndSplit true).take 4).foldl (step 0 20)
        (start (Meta.built 0 20 1))).metapage.bucket 2)
      rw [hsame]
    · intro hash bucket before hins
      have hact : (((lookedUpAndSplit true).take 6).foldl (step 0 20) (start (Meta.built 0 20 1))).activity 2 =
          .inserting 0 0 [] := by decide +kernel
      injection hact.symm.trans hins with hhash hbucket hbefore
      subst hbucket
      exact settled_run ((lookedUpAndSplit true).take 6) [1, 2, 3] (by decide)
        (by decide)
    · intro old new hsplit
      have hact : (((lookedUpAndSplit true).take 8).foldl (step 0 20) (start (Meta.built 0 20 1))).activity 2 =
          .splitting 0 2 := by decide +kernel
      injection hact.symm.trans hsplit with hold hnew
      subst hold
      exact settled_run ((lookedUpAndSplit true).take 8) [1, 2, 3] (by decide)
        (by decide +kernel)
    · intro hash bucket before hins
      have hact : (((lookedUpAndSplit true).take 10).foldl (step 0 20) (start (Meta.built 0 20 1))).activity 3 =
          .inserting 2 2 [1] := by decide +kernel
      injection hact.symm.trans hins with hhash hbucket hbefore
      subst hbucket
      exact settled_run ((lookedUpAndSplit true).take 10) [1, 2, 3] (by decide)
        (by decide +kernel)
  exact ⟨hmeets, (splits_carry_locks 0 20 0 20 1 (lookedUpAndSplit true) (.insertCheck 3) hmeets).1 2 2 [1]
    (by decide +kernel) 1 0 (by decide) (by decide +kernel)⟩

/-- Before they are copied, session 3 checks a page that session 1's lock is not on. -/
theorem splits_miss_lock :
    ¬ ChecksLocked 0 20 ((lookedUpAndSplit false).foldl (step 0 20) (start (Meta.built 0 20 1)))
      (.insertCheck 3) := by
  intro h
  have hnone : ∀ u ∈ Target.page 0 20 3 :: (Target.page 0 20 3).ancestors,
      0 ∉ ((lookedUpAndSplit false).foldl (step 0 20) (start (Meta.built 0 20 1))).ssi.holders u := by
    decide +kernel
  obtain ⟨u, hu, hmem⟩ := h 2 2 [1] (by decide +kernel) 1 0 (by decide) (by decide +kernel)
  exact hnone u hu hmem

end World

end Secantus.HashIndex
