/-
  `DistinctSet`, `IdentCounts` and `IdentIndex` beside lists searched with `==`.

  A hash picks a bucket and `==` decides inside it, so the answers are a list's as long as equal
  identities are fed to the hasher alike. They are unless two equal documents have their fields in
  different orders (`answers_like_lists_iff`).
-/
import Mathlib.Data.Set.Defs
import Secantus.Distinct.Hash
import Secantus.Library.Buckets

namespace Secantus.Distinct

open Secantus Bson Library

/-! ## Identities -/

/-- What an identity is built of: `Bson`, `Option<T>`, `Vec<T>` and `(A, B)`. -/
inductive Shape where
  | bson
  | option (s : Shape)
  | list (s : Shape)
  | pair (s t : Shape)

namespace Shape

/-- The identities of a shape. -/
abbrev Key : Shape → Type
  | bson => { b : Bson // FieldsOnce b }
  | option s => Option s.Key
  | list s => List s.Key
  | pair s t => s.Key × t.Key

/-- `==`. -/
def eq : (s : Shape) → s.Key → s.Key → Bool
  | bson, a, b => a.1.eqv b.1
  | option s, a, b =>
    match a, b with
    | none, none => true
    | some a, some b => s.eq a b
    | _, _ => false
  | list s, a, b => a.isEqv b s.eq
  | pair s t, a, b => s.eq a.1 b.1 && t.eq a.2 b.2

/-- `IdentHash::ident_hash`, as the bytes the hasher is fed. -/
def identHash : (s : Shape) → s.Key → Bytes
  | bson, a => hashBson a.1
  | option s, a =>
    match a with
    | none => [0]
    | some a => 1 :: s.identHash a
  | list s, a => feedUsize a.length ++ a.flatMap s.identHash
  | pair s t, a => s.identHash a.1 ++ t.identHash a.2

/-- The documents of two identities have their fields in one order. -/
def SameOrder : (s : Shape) → s.Key → s.Key → Prop
  | bson, a, b => Distinct.SameOrder a.1 b.1
  | option s, a, b =>
    match a, b with
    | none, none => True
    | some a, some b => s.SameOrder a b
    | _, _ => False
  | list s, a, b => List.Forall₂ s.SameOrder a b
  | pair s t, a, b => s.SameOrder a.1 b.1 ∧ t.SameOrder a.2 b.2

theorem flatMap_append_iff {α : Type} {eq : α → α → Bool} {feed : α → Bytes} {order : α → α → Prop}
    (h : ∀ a b r r', eq a b = true → (feed a ++ r = feed b ++ r' ↔ order a b ∧ r = r')) {a b : List α}
    (hab : a.isEqv b eq = true) (r r' : Bytes) :
    a.flatMap feed ++ r = b.flatMap feed ++ r' ↔ List.Forall₂ order a b ∧ r = r' := by
  induction a generalizing b with
  | nil =>
    cases b with
    | nil => simp
    | cons y b => cases hab
  | cons x a ih =>
    cases b with
    | nil => cases hab
    | cons y b =>
      rw [List.isEqv, Bool.and_eq_true] at hab
      rw [List.flatMap_cons, List.flatMap_cons, List.append_assoc, List.append_assoc, h x y _ _ hab.1,
        ih hab.2, List.forall₂_cons, and_assoc]

theorem length_eq_of_isEqv {α : Type} {eq : α → α → Bool} {a b : List α} (h : a.isEqv b eq = true) :
    a.length = b.length := by
  rw [List.isEqv_eq_decide] at h
  split at h
  · assumption
  · cases h

/-- Feeding two equal identities tells whether they have their fields in one order. -/
theorem identHash_append_iff (s : Shape) : ∀ (a b : s.Key) (r r' : Bytes), s.eq a b = true →
    (s.identHash a ++ r = s.identHash b ++ r' ↔ s.SameOrder a b ∧ r = r') := by
  induction s with
  | bson => exact fun a b r r' h => told a.1 b.1 r r' a.2 b.2 h
  | option s ih =>
    intro a b r r' h
    cases a with
    | none =>
      cases b with
      | none => simp [identHash, SameOrder]
      | some b => cases h
    | some a =>
      cases b with
      | none => cases h
      | some b => simpa [identHash, SameOrder] using ih a b r r' h
  | list s ih =>
    intro a b r r' h
    have hlen : a.length = b.length := length_eq_of_isEqv h
    show feedUsize a.length ++ a.flatMap s.identHash ++ r = feedUsize b.length ++ b.flatMap s.identHash ++ r'
      ↔ List.Forall₂ s.SameOrder a b ∧ r = r'
    rw [hlen, List.append_assoc, List.append_assoc, List.append_cancel_left_eq]
    exact flatMap_append_iff ih h r r'
  | pair s t ihs iht =>
    intro a b r r' h
    obtain ⟨h1, h2⟩ := Bool.and_eq_true_iff.mp h
    show s.identHash a.1 ++ t.identHash a.2 ++ r = s.identHash b.1 ++ t.identHash b.2 ++ r' ↔
      (s.SameOrder a.1 b.1 ∧ t.SameOrder a.2 b.2) ∧ r = r'
    rw [List.append_assoc, List.append_assoc, ihs _ _ _ _ h1, iht _ _ _ _ h2, and_assoc]

/-- Two equal identities are fed alike exactly when their documents have their fields in one order. -/
theorem identHash_eq_iff {s : Shape} {a b : s.Key} (h : s.eq a b = true) :
    s.identHash a = s.identHash b ↔ s.SameOrder a b := by
  simpa using identHash_append_iff s a b [] [] h

end Shape

/-! ## The hashed sets -/

variable (s : Shape)

/-- `DistinctSet`; `state` is what the hashers of its `RandomState` make of the bytes they are fed. -/
structure DistinctSet where
  state : Bytes → UInt64
  buckets : UInt64 → List s.Key

structure IdentCounts where
  state : Bytes → UInt64
  buckets : UInt64 → List (s.Key × ℕ)

structure IdentIndex where
  state : Bytes → UInt64
  buckets : UInt64 → List (s.Key × ℕ)
  len : ℕ

/-- The calls of `IdentCounts`. -/
inductive CountCall where
  | add (k : s.Key)
  | take (k : s.Key) (consume : Bool)

def CountCall.key {s : Shape} : CountCall s → s.Key
  | .add k | .take k _ => k

variable {s}

def DistinctSet.new (state : Bytes → UInt64) : DistinctSet s := ⟨state, fun _ => []⟩

def DistinctSet.insert (set : DistinctSet s) (k : s.Key) : Bool × DistinctSet s :=
  let h := set.state (s.identHash k)
  if (set.buckets h).any (fun m => s.eq m k) then (false, set)
  else (true, { set with buckets := Function.update set.buckets h (set.buckets h ++ [k]) })

namespace IdentCounts

/-- `IdentCounts::new`. -/
def new (state : Bytes → UInt64) : IdentCounts s := ⟨state, fun _ => []⟩

/-- `IdentCounts::add`. -/
def add (counts : IdentCounts s) (k : s.Key) : IdentCounts s :=
  let h := counts.state (s.identHash k)
  let found : s.Key × ℕ → Bool := fun m => s.eq m.1 k
  match (counts.buckets h).find? found with
  | some _ =>
    { counts with
      buckets := Function.update counts.buckets h
        (modifyFirst found (fun m => (m.1, m.2 + 1)) (counts.buckets h)) }
  | none => { counts with buckets := Function.update counts.buckets h (counts.buckets h ++ [(k, 1)]) }

/-- `IdentCounts::take`. -/
def take (counts : IdentCounts s) (k : s.Key) (consume : Bool) : Bool × IdentCounts s :=
  let h := counts.state (s.identHash k)
  let found : s.Key × ℕ → Bool := fun m => s.eq m.1 k && 0 < m.2
  match (counts.buckets h).find? found with
  | some _ =>
    (true,
      if consume then
        { counts with
          buckets := Function.update counts.buckets h
            (modifyFirst found (fun m => (m.1, m.2 - 1)) (counts.buckets h)) }
      else counts)
  | none => (false, counts)

/-- One call: what `take` answers, and nothing of `add`. -/
def call (counts : IdentCounts s) : CountCall s → Option Bool × IdentCounts s
  | .add k => (none, counts.add k)
  | .take k consume => (some (counts.take k consume).1, (counts.take k consume).2)

end IdentCounts

def IdentIndex.new (state : Bytes → UInt64) : IdentIndex s := ⟨state, fun _ => [], 0⟩

def IdentIndex.findOrAdd (index : IdentIndex s) (k : s.Key) : Except ℕ ℕ × IdentIndex s :=
  let h := index.state (s.identHash k)
  match (index.buckets h).find? (fun m => s.eq m.1 k) with
  | some (_, i) => (.ok i, index)
  | none =>
    (.error index.len,
      { index with
        buckets := Function.update index.buckets h (index.buckets h ++ [(k, index.len)])
        len := index.len + 1 })

/-! ## Lists searched with `==` -/

/-- A list of the identities met so far, as `DistinctSet` is asked. -/
def listInsert (met : List s.Key) (k : s.Key) : Bool × List s.Key :=
  if met.any (fun m => s.eq m k) then (false, met) else (true, met ++ [k])

/-- A list of members and their counts, as `IdentCounts` is asked. -/
def listCall (members : List (s.Key × ℕ)) : CountCall s → Option Bool × List (s.Key × ℕ)
  | .add k =>
    if members.any (fun m => s.eq m.1 k) then
      (none, modifyFirst (fun m => s.eq m.1 k) (fun m => (m.1, m.2 + 1)) members)
    else (none, members ++ [(k, 1)])
  | .take k consume =>
    if members.any (fun m => s.eq m.1 k && 0 < m.2) then
      (some true,
        if consume then
          modifyFirst (fun m => s.eq m.1 k && 0 < m.2) (fun m => (m.1, m.2 - 1)) members
        else members)
    else (some false, members)

/-- A list of the identities met so far, numbered by their places in it, as `IdentIndex` is asked. -/
def listFindOrAdd (met : List s.Key) (k : s.Key) : Except ℕ ℕ × List s.Key :=
  match met.findIdx? (fun m => s.eq m k) with
  | some i => (.ok i, met)
  | none => (.error met.length, met ++ [k])

/-- The three sets answer every sequence of calls on identities of `X` as the lists do. -/
structure AnswersLikeLists (state : Bytes → UInt64) (X : Set s.Key) : Prop where
  distinct : ∀ ks : List s.Key, (∀ k ∈ ks, k ∈ X) →
    answers DistinctSet.insert (.new state) ks = answers listInsert [] ks
  counts : ∀ calls : List (CountCall s), (∀ c ∈ calls, c.key ∈ X) →
    answers IdentCounts.call (.new state) calls = answers listCall [] calls
  index : ∀ ks : List s.Key, (∀ k ∈ ks, k ∈ X) →
    answers IdentIndex.findOrAdd (.new state) ks = answers listFindOrAdd [] ks

/-! ## The sets are the lists -/

/-- Equal identities of `X` are fed alike. -/
def FedAlike (X : Set s.Key) : Prop := ∀ x ∈ X, ∀ y ∈ X, s.eq x y = true → s.identHash x = s.identHash y

variable {X : Set s.Key} (state : Bytes → UInt64)

/-- The hash of an identity. -/
def hashOf (k : s.Key) : UInt64 := state (s.identHash k)

/-- What a search for `k` takes, `k`'s hash has. -/
theorem FedAlike.hashOf_eq (hX : FedAlike X) {α : Type} (key : α → s.Key) {items : List α}
    (hitems : ∀ a ∈ items, key a ∈ X) {k : s.Key} (hk : k ∈ X) (p : α → Bool)
    (hp : ∀ a, p a = true → s.eq (key a) k = true) :
    ∀ a ∈ items, p a = true → hashOf state (key a) = hashOf state k :=
  fun a ha hpa => congrArg state (hX _ (hitems a ha) k hk (hp a hpa))

theorem distinct_step (hX : FedAlike X) (set : DistinctSet s) (met : List s.Key) (k : s.Key)
    (h : set = ⟨state, bucketsOf (hashOf state) met⟩ ∧ ∀ m ∈ met, m ∈ X) (hk : k ∈ X) :
    (set.insert k).1 = (listInsert met k).1 ∧
      (set.insert k).2 = ⟨state, bucketsOf (hashOf state) (listInsert met k).2⟩ ∧
      ∀ m ∈ (listInsert met k).2, m ∈ X := by
  obtain ⟨rfl, hmet⟩ := h
  have hany : (bucketsOf (hashOf state) met (hashOf state k)).any (fun m => s.eq m k) =
      met.any fun m => s.eq m k :=
    any_bucketsOf (hX.hashOf_eq state id hmet hk (fun m => s.eq m k) fun m hm => hm)
  unfold DistinctSet.insert listInsert
  simp only
  rw [show state (s.identHash k) = hashOf state k from rfl, hany]
  split
  · exact ⟨rfl, rfl, hmet⟩
  · refine ⟨rfl, ?_, ?_⟩
    · rw [update_bucketsOf_append]
    · intro m hm
      rcases List.mem_append.mp hm with hm | hm
      · exact hmet m hm
      · exact List.mem_singleton.mp hm ▸ hk

theorem counts_step (hX : FedAlike X) (counts : IdentCounts s) (members : List (s.Key × ℕ)) (c : CountCall s)
    (h : counts = ⟨state, bucketsOf (fun m => hashOf state m.1) members⟩ ∧ ∀ m ∈ members, m.1 ∈ X)
    (hc : c.key ∈ X) :
    (counts.call c).1 = (listCall members c).1 ∧
      (counts.call c).2 = ⟨state, bucketsOf (fun m => hashOf state m.1) (listCall members c).2⟩ ∧
      ∀ m ∈ (listCall members c).2, m.1 ∈ X := by
  obtain ⟨rfl, hmembers⟩ := h
  cases c with
  | add k =>
    have hk : k ∈ X := hc
    have hfound := hX.hashOf_eq state Prod.fst hmembers hk (fun m => s.eq m.1 k) fun m hm => hm
    unfold IdentCounts.call listCall IdentCounts.add
    simp only
    rw [show state (s.identHash k) = hashOf state k from rfl, find?_bucketsOf hfound, ← List.isSome_find?]
    cases members.find? fun m => s.eq m.1 k with
    | some m =>
      refine ⟨rfl, ?_, forall_mem_modifyFirst (fun _ hm => hm) hmembers⟩
      exact congrArg (IdentCounts.mk state) (update_bucketsOf_modifyFirst (fun _ => rfl) hfound)
    | none =>
      refine ⟨rfl, ?_, ?_⟩
      · exact congrArg (IdentCounts.mk state) (update_bucketsOf_append (k, 1))
      · intro m hm
        rcases List.mem_append.mp hm with hm | hm
        · exact hmembers m hm
        · exact List.mem_singleton.mp hm ▸ hc
  | take k consume =>
    have hk : k ∈ X := hc
    have hfound := hX.hashOf_eq state Prod.fst hmembers hk (fun m => s.eq m.1 k && 0 < m.2)
      fun m hm => (Bool.and_eq_true_iff.mp hm).1
    unfold IdentCounts.call listCall IdentCounts.take
    simp only
    rw [show state (s.identHash k) = hashOf state k from rfl, find?_bucketsOf hfound, ← List.isSome_find?]
    cases members.find? fun m => s.eq m.1 k && 0 < m.2 with
    | some m =>
      cases consume with
      | true =>
        refine ⟨rfl, ?_, forall_mem_modifyFirst (fun _ hm => hm) hmembers⟩
        exact congrArg (IdentCounts.mk state) (update_bucketsOf_modifyFirst (fun _ => rfl) hfound)
      | false => exact ⟨rfl, rfl, hmembers⟩
    | none => exact ⟨rfl, rfl, hmembers⟩

theorem index_step (hX : FedAlike X) (index : IdentIndex s) (met : List s.Key) (k : s.Key)
    (h : index = ⟨state, bucketsOf (fun m => hashOf state m.1) met.zipIdx, met.length⟩ ∧ ∀ m ∈ met, m ∈ X)
    (hk : k ∈ X) :
    (index.findOrAdd k).1 = (listFindOrAdd met k).1 ∧
      (index.findOrAdd k).2 = ⟨state, bucketsOf (fun m => hashOf state m.1) (listFindOrAdd met k).2.zipIdx,
        (listFindOrAdd met k).2.length⟩ ∧
      ∀ m ∈ (listFindOrAdd met k).2, m ∈ X := by
  obtain ⟨rfl, hmet⟩ := h
  have hzip : ∀ m ∈ met.zipIdx, m.1 ∈ X := fun m hm => hmet _ (List.fst_mem_of_mem_zipIdx hm)
  have hfound := hX.hashOf_eq state Prod.fst hzip hk (fun m => s.eq m.1 k) fun m hm => hm
  unfold IdentIndex.findOrAdd listFindOrAdd
  simp only
  rw [show state (s.identHash k) = hashOf state k from rfl, find?_bucketsOf hfound,
    List.findIdx?_eq_fst_find?_zipIdx]
  cases met.zipIdx.find? fun m => s.eq m.1 k with
  | some m => exact ⟨rfl, rfl, hmet⟩
  | none =>
    refine ⟨rfl, ?_, ?_⟩
    · simp only [Option.map_none]
      rw [update_bucketsOf_append (k, met.length)]
      simp [List.zipIdx_append]
    · intro m hm
      rcases List.mem_append.mp hm with hm | hm
      · exact hmet m hm
      · exact List.mem_singleton.mp hm ▸ hk

/-- Where equal identities are fed alike, the sets answer as the lists do. -/
theorem answersLikeLists_of_fedAlike (hX : FedAlike X) : AnswersLikeLists state X where
  distinct ks hks := answers_eq_of_related (distinct_step state hX) ks ⟨rfl, by simp⟩ hks
  counts calls hcalls := answers_eq_of_related (counts_step state hX) calls ⟨rfl, by simp⟩ hcalls
  index ks hks := answers_eq_of_related (index_step state hX) ks ⟨rfl, by simp⟩ hks

theorem listInsert_pair {x y : s.Key} (h : s.eq x y = true) :
    answers listInsert [] [x, y] = [true, false] := by
  simp [answers, listInsert, h]

theorem insert_pair {x y : s.Key} (h : state (s.identHash x) ≠ state (s.identHash y)) :
    answers DistinctSet.insert (.new state) [x, y] = [true, true] := by
  simp [answers, DistinctSet.insert, DistinctSet.new, Function.update_of_ne h.symm]

theorem exists_hasher {x y : s.Key} (h : s.identHash x ≠ s.identHash y) :
    ∃ state : Bytes → UInt64, state (s.identHash x) ≠ state (s.identHash y) := by
  refine ⟨fun bs => if bs = s.identHash x then 0 else 1, ?_⟩
  simp [Ne.symm h]

theorem fedAlike_of_answersLikeLists (h : ∀ state : Bytes → UInt64, AnswersLikeLists state X) : FedAlike X := by
  intro x hx y hy hxy
  by_contra hne
  obtain ⟨state, hstate⟩ := exists_hasher hne
  have hlike := (h state).distinct [x, y] (by simp [hx, hy])
  rw [insert_pair state hstate, listInsert_pair hxy] at hlike
  cases hlike

/-- The sets answer as the lists do, whatever the hasher, and equal identities are fed to it alike, exactly
    when equal identities have the fields of their documents in one order. -/
theorem answers_like_lists_iff (s : Shape) (X : Set s.Key) :
    ((∀ state : Bytes → UInt64, AnswersLikeLists state X) ↔
        ∀ x ∈ X, ∀ y ∈ X, s.eq x y = true → s.SameOrder x y) ∧
      (FedAlike X ↔ ∀ x ∈ X, ∀ y ∈ X, s.eq x y = true → s.SameOrder x y) := by
  have hfed : FedAlike X ↔ ∀ x ∈ X, ∀ y ∈ X, s.eq x y = true → s.SameOrder x y :=
    forall₄_congr fun x _ y _ => forall_congr' fun hxy => Shape.identHash_eq_iff hxy
  refine ⟨?_, hfed⟩
  rw [← hfed]
  exact ⟨fedAlike_of_answersLikeLists, fun hX state => answersLikeLists_of_fedAlike state hX⟩

/-- `{a: 1, b: 2}`. -/
def aThenB : (Shape.option .bson).Key :=
  some ⟨.document [("a", .int32 1), ("b", .int32 2)], by simp [FieldsOnce, FieldsOnceFields]⟩

/-- `{b: 2, a: 1}`. -/
def bThenA : (Shape.option .bson).Key :=
  some ⟨.document [("b", .int32 2), ("a", .int32 1)], by simp [FieldsOnce, FieldsOnceFields]⟩

/-- Two documents of the same fields in two orders are two members of a `DistinctSet`. -/
theorem insert_reordered : (Shape.option .bson).eq aThenB bThenA = true ∧
    (Shape.option .bson).identHash aThenB ≠ (Shape.option .bson).identHash bThenA ∧
    ∃ state : Bytes → UInt64, answers DistinctSet.insert (.new state) [aThenB, bThenA] = [true, true] ∧
      answers listInsert [] [aThenB, bThenA] = [true, false] := by
  have heq : (Shape.option .bson).eq aThenB bThenA = true := by decide
  have hne : (Shape.option .bson).identHash aThenB ≠ (Shape.option .bson).identHash bThenA := by
    intro h
    have horder := (Shape.identHash_eq_iff heq).mp h
    simp [Shape.SameOrder, aThenB, bThenA, Distinct.SameOrder, SameOrderFields] at horder
  obtain ⟨state, hstate⟩ := exists_hasher hne
  exact ⟨heq, hne, state, insert_pair state hstate, listInsert_pair heq⟩

end Secantus.Distinct
