/-
  $bucketAuto (group.rs, `bucket_auto_stage` and `bucket_auto_granular`).

  The documents are sorted by the sort key of their group value and cut into buckets from the front. Without a
  granularity a bucket takes its share of them and every further one with the key of the last; with one, it takes
  its share and everything below the share's largest value rounded up, and the first document left is looked at
  before the bucket is closed.

  Expressions, accumulators, the sorter's memory limit, the rounders and the quotients of floats are parameters.
  `Cut` is what one turn of either loop leaves: a front of the documents no key of which comes back.
-/
import Secantus.Bson.Equality
import Secantus.BsonOrder.Preorder

namespace Secantus.BucketAuto

open Secantus Bson BsonOrder SortKey

/-! ## The stage -/

/-- A document, its group value and that value's sort key (an entry of `keyed`). -/
structure Keyed where
  key : Bytes
  value : Bson
  doc : Document

/-- A bucket: the two ends of its `_id` and the documents accumulated into it. -/
structure Bucket where
  min : Bson
  max : Bson
  docs : List Keyed

/-- A granularity: its rounders. -/
structure Rounder where
  up : Bson → Except Fallback Bson
  down : Bson → Except Fallback Bson

/-- What the stage is run with, its spec read. -/
structure Stage where
  /-- `eval` of the groupBy expression. -/
  eval : Document → Except Fallback Bson
  /-- `eval_or_missing` of it. -/
  evalOrMissing : Document → Except Fallback (Option Bson)
  /-- `blocking_sort`, run for its refusal alone. -/
  blockingSort : List (Bson × Document) → Except Fallback Unit
  /-- `encode_sort_value`, under the active collation. -/
  encodeSortValue : Bson → Except Fallback Bytes
  /-- A collation is of strings: a number has its plain key. -/
  number : ∀ v q, quantity v = some q → encodeSortValue v = .ok (rankNumber :: encodeNumber v)
  /-- The order of binary data in `order::cmp`. -/
  order : BinDataOrder
  /-- The count of documents over that of buckets, a quotient of two floats, rounded. -/
  quotient : ℕ → ℕ → ℕ
  /-- `accumulate_into`, with its output spec. -/
  accumulateInto : Bson → List Document → Except Fallback Document

/-- The documents a bucket gives. -/
def Stage.accumulate (S : Stage) (b : Bucket) : Except Fallback Document :=
  S.accumulateInto (.document [("min", b.min), ("max", b.max)]) (b.docs.map (·.doc))

/-- `query::bson_type_name`. -/
def bsonTypeName (v : Bson) : String :=
  match asRawText v with
  | some (.regex, _) => "regex"
  | some (.dbPointer, _) => "dbPointer"
  | some (.javaScript, _) => "javascript"
  | some (.symbol, _) => "symbol"
  | some (.javaScriptScope, _) => "javascriptWithScope"
  | none =>
    match asInvalidUtf8 v with
    | some _ => "string"
    | none =>
      match v with
      | .boolean _ => "bool"
      | .int64 _ => "long"
      | .int32 _ => "int"
      | .double _ => "double"
      | .decimal128 _ => "decimal"
      | .string _ => "string"
      | .objectId _ => "objectId"
      | .dateTime _ => "date"
      | .null => "null"
      | .regularExpression _ => "regex"
      | .binary _ => "binData"
      | .array _ => "array"
      | .minKey => "minKey"
      | .maxKey => "maxKey"
      | .timestamp _ => "timestamp"
      | .undefined => "undefined"
      | .javaScriptCode _ => "javascript"
      | .javaScriptCodeWithScope _ _ => "javascriptWithScope"
      | .symbol _ => "symbol"
      | .dbPointer _ _ => "dbPointer"
      | .document _ => "object"

/-- Whether a number is a NaN, and whether it is negative; none for what is no number. -/
def nanOrNegative : Option Bson → Option (Bool × Bool)
  | some (.int32 n) => some (false, n < 0)
  | some (.int64 n) => some (false, n < 0)
  | some (.double d) => some (d.isNan, d.partialCmp ⟨0⟩ == some .lt)
  | some (.decimal128 d) =>
    match d.value with
    | .nan => some (true, false)
    | .inf neg => some (false, neg)
    | .finite neg coeff _ => some (false, neg && coeff.val != 0)
  | _ => none

def granularityValueError (v : Option Bson) : Option Fallback :=
  match nanOrNegative v with
  | none =>
    some (.mongo 40258 ("$bucketAuto can specify a 'granularity' with numeric boundaries only, but found a value " ++
      "with type: " ++ (v.map bsonTypeName).getD "missing"))
  | some (nan, negative) =>
    if nan then
      some (.mongo 40259 "$bucketAuto can specify a 'granularity' with numeric boundaries only, but found a NaN")
    else if negative then
      some (.mongo 40260
        "$bucketAuto can specify a 'granularity' with non-negative numbers only, but found a negative number")
    else none

/-- The group value of a document. -/
def groupValue (S : Stage) (granular : Bool) (d : Document) : Except Fallback Bson :=
  if granular then do
    let v ← S.evalOrMissing d
    match granularityValueError v with
    | some e => .error e
    | none => .ok (v.getD .null)
  else S.eval d

/-- The order of the sort: that of the keys' bytes. -/
def leKey (a b : Keyed) : Bool := (compare a.key b.key).isLE

/-- The documents with their keys, in the order of these. -/
def sortedKeyed (S : Stage) (granular : Bool) (docs : List Document) : Except Fallback (List Keyed) := do
  let pairs ← docs.mapM fun d => do .ok (← groupValue S granular d, d)
  S.blockingSort pairs
  let keyed ← pairs.mapM fun p => do .ok ⟨← S.encodeSortValue p.1, p.1, p.2⟩
  .ok (keyed.mergeSort leKey)

/-! ## The plain split -/

/-- The documents that follow `last` with its key, and the others. -/
def stretch : Keyed → List Keyed → List Keyed × List Keyed
  | _, [] => ([], [])
  | last, x :: xs =>
    if last.key = x.key then (x :: (stretch x xs).1, (stretch x xs).2) else ([], x :: xs)

/-- The next bucket and what is left; none when the bucket would be empty. -/
def plainBucket (size : ℕ) (isLast : Bool) (x : Keyed) (xs : List Keyed) : Option (Bucket × List Keyed) :=
  let taken := if isLast then x :: xs else (x :: xs).take size
  match taken.getLast? with
  | none => none
  | some last =>
    let (more, rest) := stretch last ((x :: xs).drop taken.length)
    let chunk := taken ++ more
    let upper :=
      match isLast, rest with
      | false, next :: _ => next.value
      | _, _ => (more.getLastD last).value
    some (⟨x.value, upper, chunk⟩, rest)

/-- The plain split into buckets of about `size`, with room for so many. -/
def plainBuckets (S : Stage) (size : ℕ) : (room : ℕ) → List Keyed → Except Fallback (List Document)
  | 0, _ => .ok []
  | _ + 1, [] => .ok []
  | room + 1, x :: xs =>
    match plainBucket size (room == 0) x xs with
    | none => .ok []
    | some (b, rest) => do
      let out ← S.accumulate b
      let outs ← plainBuckets S size room rest
      .ok (out :: outs)

/-! ## The split of a granularity -/

def isNumericZero : Bson → Bool
  | .double d => d.eqv ⟨0⟩
  | .int32 n => n == 0
  | .int64 n => n == 0
  | .decimal128 d =>
    match d.value with
    | .finite _ coeff _ => coeff.val == 0
    | _ => false
  | _ => false

/-- Where the loop stands: the document looked at and carried over, and those behind it. -/
structure Cursor where
  carry : Option Keyed
  rest : List Keyed

/-- The documents not yet in a bucket. -/
def Cursor.left (c : Cursor) : List Keyed := c.carry.toList ++ c.rest

/-- The first document of the next bucket. -/
def Cursor.next : Cursor → Option (Keyed × List Keyed)
  | ⟨some c, rest⟩ => some (c, rest)
  | ⟨none, x :: rest⟩ => some (x, rest)
  | ⟨none, []⟩ => none

/-- The bucket's share: documents up to the `approx`th, all of them in the last bucket. -/
def fill (approx : ℕ) (isLast : Bool) : (i : ℕ) → List Keyed → List Keyed × List Keyed
  | _, [] => ([], [])
  | i, x :: xs =>
    if i < approx ∨ isLast then (x :: (fill approx isLast (i + 1) xs).1, (fill approx isLast (i + 1) xs).2)
    else ([], x :: xs)

/-- The documents absorbed, and the first one that is not, carried over. -/
def absorb (falls : Bson → Bool) : List Keyed → List Keyed × Cursor
  | [] => ([], ⟨none, []⟩)
  | next :: rest =>
    if falls next.value then (next :: (absorb falls rest).1, (absorb falls rest).2)
    else ([], ⟨some next, rest⟩)

/-- The largest value of a share. -/
def curMax (cur : Keyed) (taken : List Keyed) : Bson := (taken.getLastD cur).value

/-- The lower end: the last bucket's upper one, or the first document's value rounded down. -/
def curMin (r : Rounder) (previousMax : Option Bson) (cur : Keyed) : Except Fallback Bson :=
  match previousMax with
  | some p => .ok p
  | none => r.down cur.value

/-- The upper end: the boundary, or the next value rounded down where the boundary is zero. -/
def bucketMax (r : Rounder) (boundary : Bson) (carry : Option Keyed) : Except Fallback Bson :=
  match carry with
  | some next => if isNumericZero boundary then r.down next.value else .ok boundary
  | none => .ok boundary

/-- One turn of the loop, its first document read. (The checks of `granularity_coerce` are made before it by
    `granularity_value_error`.) -/
def granularBucket (S : Stage) (r : Rounder) (approx : ℕ) (isLast : Bool) (previousMax : Option Bson)
    (cur : Keyed) (rest : List Keyed) : Except Fallback (Bucket × Cursor) := do
  let low ← curMin r previousMax cur
  let share := fill approx isLast 1 rest
  let largest := curMax cur share.1
  let boundary ← r.up largest
  let absorbed := absorb
    (fun v => BsonOrder.cmp S.order boundary v == .gt || BsonOrder.cmp S.order largest v == .eq) share.2
  let high ← bucketMax r boundary absorbed.2.carry
  .ok (⟨low, high, cur :: (share.1 ++ absorbed.1)⟩, absorbed.2)

/-- The loop, for as many turns as there are documents. -/
def granularBuckets (S : Stage) (r : Rounder) (approx nBuckets : ℕ) :
    (fuel bucketNum : ℕ) → Option Bson → Cursor → Except Fallback (List Document)
  | 0, _, _, _ => .ok []
  | fuel + 1, bucketNum, previousMax, cursor =>
    match cursor.next with
    | none => .ok []
    | some (cur, rest) => do
      let (b, cursor) ← granularBucket S r approx (bucketNum + 1 == nBuckets) previousMax cur rest
      let out ← S.accumulate b
      let outs ← granularBuckets S r approx nBuckets fuel (bucketNum + 1) (some b.max) cursor
      .ok (out :: outs)

/-- `bucket_auto_stage`, with its arguments. -/
def bucketAutoStage (S : Stage) (nBuckets : ℕ) (granularity : Option Rounder) (docs : List Document) :
    Except Fallback (List Document) := do
  let keyed ← sortedKeyed S granularity.isSome docs
  let size := max 1 (S.quotient keyed.length nBuckets)
  match granularity with
  | some r => granularBuckets S r size nBuckets keyed.length 0 none ⟨none, keyed⟩
  | none => plainBuckets S size nBuckets keyed

/-! ## One bucket cut off -/

/-- A front of sorted documents and the rest, no key of the one in the other. -/
structure Cut (l front rest : List Keyed) : Prop where
  whole : front ++ rest = l
  nonempty : front ≠ []
  apart : ∀ x ∈ front, ∀ y ∈ rest, compare x.key y.key = .lt

/-- In the order of the keys. -/
def Sorted (l : List Keyed) : Prop := l.Pairwise fun a b => (compare a.key b.key).isLE

theorem isLE_refl (k : Bytes) : (compare k k).isLE = true := by
  rw [Std.compare_self]
  rfl

theorem Sorted.rest {l front rest : List Keyed} (h : Sorted l) (hc : front ++ rest = l) : Sorted rest :=
  (List.pairwise_append.mp (hc ▸ h)).2.1

/-- It is enough that the first document left has another key than the last taken. -/
theorem cut_of_ne {l front rest : List Keyed} {last : Keyed} (h : Sorted l) (hw : front ++ rest = l)
    (hlast : front.getLast? = some last) (hne : ∀ y ∈ rest.head?, last.key ≠ y.key) : Cut l front rest := by
  refine ⟨hw, fun hnil => ?_, fun x hx y hy => ?_⟩
  · rw [hnil] at hlast
    cases hlast
  obtain ⟨front', rfl⟩ := List.getLast?_eq_some_iff.mp hlast
  cases rest with
  | nil => cases hy
  | cons z rest =>
    rw [← hw] at h
    obtain ⟨hfront, hrest, hcross⟩ := List.pairwise_append.mp h
    have hxl : (compare x.key last.key).isLE := by
      rcases List.mem_append.mp hx with hx | hx
      · exact (List.pairwise_append.mp hfront).2.2 x hx last List.mem_cons_self
      · rw [List.mem_singleton.mp hx]
        exact isLE_refl _
    have hlz : compare last.key z.key = .lt := by
      have hle : (compare last.key z.key).isLE = true := hcross last (by simp) z List.mem_cons_self
      refine (Ordering.isLE_iff_eq_lt_or_eq_eq.mp hle).resolve_right fun heq => ?_
      exact hne z rfl (Std.compare_eq_iff_eq.mp heq)
    have hzy : (compare z.key y.key).isLE := by
      rcases List.mem_cons.mp hy with rfl | hy
      · exact isLE_refl _
      · exact List.rel_of_pairwise_cons hrest hy
    exact Std.TransCmp.lt_of_lt_of_isLE (Std.TransCmp.lt_of_isLE_of_lt hxl hlz) hzy

theorem stretch_append (last : Keyed) (l : List Keyed) : (stretch last l).1 ++ (stretch last l).2 = l := by
  induction l generalizing last with
  | nil => rfl
  | cons x xs ih =>
    rw [stretch]
    split
    · exact congrArg (x :: ·) (ih x)
    · rfl

theorem stretch_ne (last : Keyed) (l : List Keyed) :
    ∀ y ∈ (stretch last l).2.head?, ((stretch last l).1.getLastD last).key ≠ y.key := by
  induction l generalizing last with
  | nil => nofun
  | cons x xs ih =>
    rw [stretch]
    split
    · rw [List.getLastD_cons]
      exact ih x
    · rename_i hne
      intro y hy
      obtain rfl : x = y := Option.some.inj hy
      exact hne

/-! ## Buckets of a list -/

/-- Buckets of a sorted list: its documents, each in one of them and in order, with no key in two, and each
    bucket's upper end the next one's lower end. -/
structure Split (l : List Keyed) (bs : List Bucket) : Prop where
  whole : bs.flatMap (·.docs) = l
  nonempty : ∀ b ∈ bs, b.docs ≠ []
  apart : bs.Pairwise fun b c => ∀ x ∈ b.docs, ∀ y ∈ c.docs, compare x.key y.key = .lt
  joined : bs.IsChain fun b c => b.max = c.min

theorem Split.nil : Split [] [] := ⟨rfl, nofun, List.Pairwise.nil, List.IsChain.nil⟩

theorem Split.eq_nil {bs : List Bucket} (h : Split [] bs) : bs = [] := by
  cases bs with
  | nil => rfl
  | cons b bs =>
    have hw := h.whole
    rw [List.flatMap_cons, List.append_eq_nil_iff] at hw
    exact absurd hw.1 (h.nonempty b List.mem_cons_self)

theorem Split.mem {l : List Keyed} {bs : List Bucket} (h : Split l bs) {b : Bucket} (hb : b ∈ bs) {x : Keyed}
    (hx : x ∈ b.docs) : x ∈ l := by
  rw [← h.whole]
  exact List.mem_flatMap.mpr ⟨b, hb, hx⟩

/-- A bucket cut off the front, before the buckets of the rest. -/
theorem Split.cons {l rest : List Keyed} {b : Bucket} {bs : List Bucket} (hc : Cut l b.docs rest)
    (hs : Split rest bs) (hj : ∀ c ∈ bs.head?, b.max = c.min) : Split l (b :: bs) where
  whole := by
    rw [List.flatMap_cons, hs.whole]
    exact hc.whole
  nonempty c hcm := by
    rcases List.mem_cons.mp hcm with rfl | hcm
    · exact hc.nonempty
    · exact hs.nonempty c hcm
  apart := List.pairwise_cons.mpr ⟨fun c hcm x hx y hy => hc.apart x hx y (hs.mem hcm hy), hs.apart⟩
  joined := by
    cases bs with
    | nil => exact List.IsChain.singleton b
    | cons c bs => exact List.IsChain.cons_cons (hj c rfl) hs.joined

/-! ## The plain split's buckets -/

theorem plainBucket_spec {size : ℕ} {isLast : Bool} {x : Keyed} {xs rest : List Keyed} {b : Bucket}
    (h : Sorted (x :: xs)) (hb : plainBucket size isLast x xs = some (b, rest)) :
    Cut (x :: xs) b.docs rest ∧ b.min = x.value ∧ (isLast = true → rest = []) ∧
      (∀ y ∈ rest.head?, b.max = y.value) ∧
      (rest = [] → ∃ last, b.docs.getLast? = some last ∧ b.max = last.value) := by
  unfold plainBucket at hb
  simp only at hb
  split at hb
  · cases hb
  rename_i last hlast
  obtain ⟨rfl, rfl⟩ := Prod.mk.inj (Option.some.inj hb)
  dsimp only
  generalize htaken : (if isLast then x :: xs else (x :: xs).take size) = taken at *
  have hpre : taken ++ (x :: xs).drop taken.length = x :: xs := by
    rw [← htaken]
    split
    · simp
    · rw [List.length_take]
      rcases Nat.le_total size (x :: xs).length with hle | hle
      · rw [Nat.min_eq_left hle, List.take_append_drop]
      · rw [Nat.min_eq_right hle, List.take_of_length_le hle, List.drop_length, List.append_nil]
  have hall : isLast = true → (x :: xs).drop taken.length = [] := by
    intro hl
    rw [← htaken, if_pos hl, List.drop_length]
  generalize hbehind : (x :: xs).drop taken.length = behind at *
  have hend : (taken ++ (stretch last behind).1).getLast? = some ((stretch last behind).1.getLastD last) := by
    rw [List.getLast?_append, hlast]
    cases (stretch last behind).1 using List.reverseRecOn with
    | nil => rfl
    | append_singleton l z => simp
  refine ⟨cut_of_ne h ?_ hend (stretch_ne last behind), rfl, ?_, ?_, ?_⟩
  · rw [List.append_assoc, stretch_append, hpre]
  · intro hl
    rw [hall hl]
    rfl
  · intro y hy
    cases hl : isLast with
    | true =>
      rw [hall hl] at hy
      cases hy
    | false =>
      cases hr : (stretch last behind).2 with
      | nil =>
        rw [hr] at hy
        cases hy
      | cons z rest =>
        rw [hr] at hy
        exact congrArg Keyed.value (Option.some.inj hy)
  · intro hr
    refine ⟨_, hend, ?_⟩
    rw [hr]
    cases isLast <;> rfl

theorem plainBucket_ne_none {size : ℕ} (hsize : 1 ≤ size) (isLast : Bool) (x : Keyed) (xs : List Keyed) :
    plainBucket size isLast x xs ≠ none := by
  unfold plainBucket
  simp only
  split
  · rename_i hnone
    rw [List.getLast?_eq_none_iff] at hnone
    obtain ⟨n, rfl⟩ : ∃ n, size = n + 1 := ⟨size - 1, by omega⟩
    cases isLast <;> simp at hnone
  · simp

/-- Where the ends of the plain buckets lie: the lower end is a document's value at most every other, the upper
    end one at least every other, and above them all but in the last bucket. -/
structure PlainEnds (l : List Keyed) (bs : List Bucket) : Prop where
  min : ∀ b ∈ bs, ∃ z ∈ l, b.min = z.value ∧ ∀ x ∈ b.docs, (compare z.key x.key).isLE
  max : ∀ b ∈ bs, ∃ z ∈ l, b.max = z.value ∧ ∀ x ∈ b.docs, (compare x.key z.key).isLE
  below : ∀ b ∈ bs.dropLast, ∃ z ∈ l, b.max = z.value ∧ ∀ x ∈ b.docs, compare x.key z.key = .lt

theorem PlainEnds.nil (l : List Keyed) : PlainEnds l [] := ⟨nofun, nofun, nofun⟩

theorem le_getLast {l front rest : List Keyed} {last : Keyed} (h : Sorted l) (hw : front ++ rest = l)
    (hlast : front.getLast? = some last) : ∀ x ∈ front, (compare x.key last.key).isLE := by
  obtain ⟨front', rfl⟩ := List.getLast?_eq_some_iff.mp hlast
  rw [← hw] at h
  have hfront := (List.pairwise_append.mp h).1
  intro x hx
  rcases List.mem_append.mp hx with hx | hx
  · exact (List.pairwise_append.mp hfront).2.2 x hx last List.mem_cons_self
  · rw [List.mem_singleton.mp hx]
    exact isLE_refl _

theorem head_le {x : Keyed} {xs : List Keyed} (h : Sorted (x :: xs)) : ∀ y ∈ x :: xs, (compare x.key y.key).isLE := by
  intro y hy
  rcases List.mem_cons.mp hy with rfl | hy
  · exact isLE_refl _
  · exact List.rel_of_pairwise_cons h hy

theorem PlainEnds.cons {size : ℕ} {isLast : Bool} {x : Keyed} {xs rest : List Keyed} {b : Bucket}
    {bs : List Bucket} (h : Sorted (x :: xs)) (hb : plainBucket size isLast x xs = some (b, rest))
    (hs : Split rest bs) (he : PlainEnds rest bs) : PlainEnds (x :: xs) (b :: bs) := by
  obtain ⟨hc, hmin, -, hmax, hown⟩ := plainBucket_spec h hb
  have hrest : ∀ y ∈ rest, y ∈ x :: xs := fun y hy => hc.whole ▸ List.mem_append_right _ hy
  have hfront : ∀ y ∈ b.docs, y ∈ x :: xs := fun y hy => hc.whole ▸ List.mem_append_left _ hy
  have hlt : ∀ y ∈ rest.head?, y ∈ x :: xs ∧ b.max = y.value ∧ ∀ d ∈ b.docs, compare d.key y.key = .lt := by
    intro y hy
    have hyr := List.mem_of_mem_head? hy
    exact ⟨hrest y hyr, hmax y hy, fun d hd => hc.apart d hd y hyr⟩
  refine ⟨?_, ?_, ?_⟩
  · intro c hcm
    rcases List.mem_cons.mp hcm with rfl | hcm
    · exact ⟨x, List.mem_cons_self, hmin, fun d hd => head_le h d (hfront d hd)⟩
    · obtain ⟨z, hz, hz'⟩ := he.min c hcm
      exact ⟨z, hrest z hz, hz'⟩
  · intro c hcm
    rcases List.mem_cons.mp hcm with rfl | hcm
    · cases hr : rest with
      | nil =>
        obtain ⟨last, hlast, hv⟩ := hown hr
        exact ⟨last, hfront last (List.mem_of_getLast? hlast), hv, le_getLast h hc.whole hlast⟩
      | cons y ys =>
        obtain ⟨hy, hv, hd⟩ := hlt y (by rw [hr]; rfl)
        exact ⟨y, hy, hv, fun d hdm => by rw [hd d hdm]; rfl⟩
    · obtain ⟨z, hz, hz'⟩ := he.max c hcm
      exact ⟨z, hrest z hz, hz'⟩
  · intro c hcm
    cases bs with
    | nil => cases hcm
    | cons b' bs =>
      rw [List.dropLast_cons_cons] at hcm
      rcases List.mem_cons.mp hcm with rfl | hcm
      · cases hr : rest with
        | nil =>
          rw [hr] at hs
          exact absurd hs.eq_nil (List.cons_ne_nil _ _)
        | cons y ys => exact ⟨y, hlt y (by rw [hr]; rfl)⟩
      · obtain ⟨z, hz, hz'⟩ := he.below c hcm
        exact ⟨z, hrest z hz, hz'⟩

/-- The plain split, from any number of documents left and any room for them. -/
theorem plainBuckets_spec (S : Stage) {size : ℕ} (hsize : 1 ≤ size) :
    ∀ {room : ℕ} {l : List Keyed} {out : List Document}, Sorted l → (l ≠ [] → 0 < room) →
      plainBuckets S size room l = .ok out →
      ∃ bs : List Bucket, bs.mapM S.accumulate = .ok out ∧ Split l bs ∧ bs.length ≤ room ∧ PlainEnds l bs ∧
        ∀ c ∈ bs.head?, ∃ x ∈ l.head?, c.min = x.value := by
  intro room
  induction room with
  | zero =>
    intro l out _ hroom hout
    obtain rfl : l = [] := by
      by_contra hne
      exact absurd (hroom hne) (by omega)
    cases hout
    exact ⟨[], rfl, Split.nil, Nat.le_refl _, PlainEnds.nil _, nofun⟩
  | succ room ih =>
    intro l out h hroom hout
    cases l with
    | nil =>
      cases hout
      exact ⟨[], rfl, Split.nil, Nat.zero_le _, PlainEnds.nil _, nofun⟩
    | cons x xs =>
      rw [plainBuckets] at hout
      cases hb : plainBucket size (room == 0) x xs with
      | none => exact absurd hb (plainBucket_ne_none hsize _ _ _)
      | some p =>
        obtain ⟨b, rest⟩ := p
        rw [hb] at hout
        obtain ⟨d, hd, hout⟩ := Outcome.bind_eq_ok.mp hout
        obtain ⟨ds, hds, hout⟩ := Outcome.bind_eq_ok.mp hout
        cases hout
        obtain ⟨hc, hmin, hlast, hmax, -⟩ := plainBucket_spec h hb
        have hleft : rest ≠ [] → 0 < room := by
          intro hne
          by_contra hzero
          exact hne (hlast (by simpa using Nat.eq_zero_of_not_pos hzero))
        obtain ⟨bs, hbs, hsplit, hlen, hends, hhead⟩ := ih (h.rest hc.whole) hleft hds
        refine ⟨b :: bs, ?_, hsplit.cons hc ?_, ?_, hends.cons h hb hsplit, ?_⟩
        · rw [List.mapM_cons, hd, hbs]
          rfl
        · intro c hcm
          obtain ⟨y, hy, hcy⟩ := hhead c hcm
          rw [hcy]
          exact hmax y hy
        · rw [List.length_cons]
          omega
        · intro c hcm
          obtain rfl : b = c := Option.some.inj hcm
          exact ⟨x, rfl, hmin⟩

theorem plainBuckets_ok (S : Stage) (hacc : ∀ b, ∃ d, S.accumulate b = .ok d) (size : ℕ) :
    ∀ (room : ℕ) (l : List Keyed), ∃ out, plainBuckets S size room l = .ok out := by
  intro room
  induction room with
  | zero => exact fun _ => ⟨[], rfl⟩
  | succ room ih =>
    intro l
    cases l with
    | nil => exact ⟨[], rfl⟩
    | cons x xs =>
      rw [plainBuckets]
      cases plainBucket size (room == 0) x xs with
      | none => exact ⟨[], rfl⟩
      | some p =>
        obtain ⟨d, hd⟩ := hacc p.1
        obtain ⟨ds, hds⟩ := ih p.2
        exact ⟨d :: ds, Outcome.bind_eq_ok.mpr ⟨d, hd, Outcome.bind_eq_ok.mpr ⟨ds, hds, rfl⟩⟩⟩

end Secantus.BucketAuto
