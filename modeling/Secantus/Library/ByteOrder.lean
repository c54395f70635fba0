/-
  Order-preserving byte strings: a small calculus for proving that an encoder turns
  an order on values into the lexicographic order on strings.

  A pair of strings is SETTLED at `o` when comparing them with anything appended
  gives `o`, and only falls through to what was appended when `o` is `eq`. Settled
  pairs compose by concatenation (`Settled.append`), which is what a field inside a
  larger key needs. A pair is OPEN at `o` when it compares as `o` on its own and is
  settled once the separator `z z` closes it: the last field of a key.

  `escape z e` writes `e` after every `z`, so `z z` never occurs inside an escaped
  string. Escaped strings keep their order (`open_escape`), the first `z z` of a
  packed string is where the escaped part ends (`sepPos_escape`), and `unescape`
  takes the escape back (`unescape_escape`).

  `beBytes w` writes an integer big-endian in `w` bytes, in integer order
  (`settled_beBytes`). Everything else is over an arbitrary ordered alphabet in which `z`
  is the least letter.
-/
import Mathlib.Order.Compare
import Mathlib.Data.List.Basic
import Mathlib.Data.UInt
import Mathlib.Algebra.Order.Ring.Nat
import Mathlib.Tactic.Linarith
import Mathlib.Tactic.Positivity

namespace ByteOrder

open Std (LawfulEqOrd)

/-! ## The escape -/

section Escape

variable {α : Type*} [DecidableEq α] (z e : α)

/-- Writes `e` after every `z`. -/
def escape : List α → List α
  | [] => []
  | b :: bs => if b = z then b :: e :: escape bs else b :: escape bs

/-- Drops an `e` that follows a `z`. -/
def unescape : List α → List α
  | [] => []
  | [b] => [b]
  | b :: c :: bs => if b = z ∧ c = e then b :: unescape bs else b :: unescape (c :: bs)

/-- The position of the first `z z`. -/
def sepPos : List α → Option Nat
  | [] => none
  | [_] => none
  | b :: c :: bs => if b = z ∧ c = z then some 0 else (sepPos (c :: bs)).map (· + 1)

@[simp] theorem escape_nil : escape z e [] = [] := rfl

@[simp] theorem escape_cons_zero (bs : List α) : escape z e (z :: bs) = z :: e :: escape z e bs := by
  simp [escape]

theorem escape_cons_of_ne {b : α} (hb : b ≠ z) (bs : List α) :
    escape z e (b :: bs) = b :: escape z e bs := by
  simp [escape, hb]

theorem escape_append (x y : List α) : escape z e (x ++ y) = escape z e x ++ escape z e y := by
  induction x with
  | nil => rfl
  | cons b x ih =>
    by_cases hb : b = z
    · subst hb
      simp [ih]
    · simp [escape_cons_of_ne, hb, ih]

theorem unescape_cons_of_ne {b : α} (hb : b ≠ z) (bs : List α) :
    unescape z e (b :: bs) = b :: unescape z e bs := by
  cases bs with
  | nil => rfl
  | cons c bs => simp [unescape, hb]

theorem unescape_escape (x : List α) : unescape z e (escape z e x) = x := by
  induction x with
  | nil => rfl
  | cons b x ih =>
    by_cases hb : b = z
    · subst hb
      simp [unescape, ih]
    · rw [escape_cons_of_ne _ _ hb, unescape_cons_of_ne _ _ hb, ih]

theorem sepPos_cons_of_ne {b : α} (hb : b ≠ z) (bs : List α) :
    sepPos z (b :: bs) = (sepPos z bs).map (· + 1) := by
  cases bs with
  | nil => rfl
  | cons c bs => simp [sepPos, hb]

variable {z e}

/-- The first separator of a packed string ends its escaped half. -/
theorem sepPos_escape (he : e ≠ z) (x r : List α) :
    sepPos z (escape z e x ++ z :: z :: r) = some (escape z e x).length := by
  induction x with
  | nil => simp [sepPos]
  | cons b x ih =>
    by_cases hb : b = z
    · subst hb
      have h1 : sepPos b (b :: e :: (escape b e x ++ b :: b :: r)) =
          (sepPos b (e :: (escape b e x ++ b :: b :: r))).map (· + 1) := by
        simp [sepPos, he]
      rw [escape_cons_zero, List.cons_append, List.cons_append, h1, sepPos_cons_of_ne _ he, ih]
      simp
    · rw [escape_cons_of_ne _ _ hb, List.cons_append, sepPos_cons_of_ne _ hb, ih]
      simp

end Escape

/-! ## Settled pairs -/

variable {α : Type*} [Ord α]

/-- `x` and `y` compare as `o` whatever follows them; only `o = eq` looks further. -/
def Settled (o : Ordering) (x y : List α) : Prop :=
  ∀ s t, compare (x ++ s) (y ++ t) = o.then (compare s t)

theorem Settled.compare_eq {o : Ordering} {x y : List α} (h : Settled o x y) :
    compare x y = o := by
  have h0 := h [] []
  rw [List.append_nil, List.append_nil, List.compare_nil_nil, Ordering.then_eq] at h0
  exact h0

theorem Settled.append {o o' : Ordering} {x y x' y' : List α} (h : Settled o x y)
    (h' : Settled o' x' y') : Settled (o.then o') (x ++ x') (y ++ y') := by
  intro s t
  rw [List.append_assoc, List.append_assoc, h, h', Ordering.then_assoc]

theorem settled_nil : Settled .eq ([] : List α) [] := by
  intro s t
  rfl

theorem settled_singleton (a b : α) : Settled (compare a b) [a] [b] := by
  intro s t
  rw [List.singleton_append, List.singleton_append, List.compare_cons_cons]

theorem Settled.cons {o : Ordering} {x y : List α} (a b : α) (h : Settled o x y) :
    Settled ((compare a b).then o) (a :: x) (b :: y) :=
  (settled_singleton a b).append h

/-- A decided pair stays decided when both sides are extended. -/
theorem Settled.extend {o : Ordering} {x y : List α} (h : Settled o x y) (ho : o ≠ .eq)
    (s t : List α) : Settled o (x ++ s) (y ++ t) := by
  intro s' t'
  rw [List.append_assoc, List.append_assoc, h]
  cases o with
  | eq => exact absurd rfl ho
  | lt => rfl
  | gt => rfl

theorem Settled.swap [Std.OrientedOrd α] {o : Ordering} {x y : List α} (h : Settled o x y) :
    Settled o.swap y x := by
  intro s t
  rw [Std.OrientedOrd.eq_swap, h, Ordering.swap_then, ← Std.OrientedOrd.eq_swap]

/-- Strings of one length are settled at their own comparison. -/
theorem settled_of_length_eq : ∀ {x y : List α}, x.length = y.length → Settled (compare x y) x y
  | [], [], _ => settled_nil
  | a :: x, b :: y, h => by
    rw [List.compare_cons_cons]
    exact (settled_of_length_eq (Nat.succ.inj h)).cons a b

/-- Letters mapped in order keep the order of strings. -/
theorem compare_map {β : Type*} [Ord β] {f : β → α} : ∀ {x y : List β},
    (∀ a ∈ x, ∀ b ∈ y, compare (f a) (f b) = compare a b) → compare (x.map f) (y.map f) = compare x y
  | [], [], _ => rfl
  | [], _ :: _, _ => rfl
  | _ :: _, [], _ => rfl
  | a :: x, b :: y, h => by
    rw [List.map_cons, List.map_cons, List.compare_cons_cons, List.compare_cons_cons,
      h a List.mem_cons_self b List.mem_cons_self,
      compare_map fun u hu v hv => h u (List.mem_cons_of_mem a hu) v (List.mem_cons_of_mem b hv)]

/-- Letters mapped against their order, and closed by one above them all, turn the order of strings. -/
theorem compare_map_swap {β : Type*} [Ord β] {f : β → α} {t : α} (ht : compare t t = .eq) :
    ∀ {x y : List β}, (∀ a ∈ x, ∀ b ∈ y, compare (f a) (f b) = (compare a b).swap) →
    (∀ a ∈ x, compare (f a) t = .lt) → (∀ b ∈ y, compare t (f b) = .gt) →
    compare (x.map f ++ [t]) (y.map f ++ [t]) = (compare x y).swap
  | [], [], _, _, _ => by
    rw [List.map_nil, List.nil_append, List.compare_cons_cons, ht]
    rfl
  | [], b :: y, _, _, hy => by
    rw [List.map_nil, List.nil_append, List.map_cons, List.cons_append, List.compare_cons_cons,
      hy b List.mem_cons_self]
    rfl
  | a :: x, [], _, hx, _ => by
    rw [List.map_nil, List.nil_append, List.map_cons, List.cons_append, List.compare_cons_cons,
      hx a List.mem_cons_self]
    rfl
  | a :: x, b :: y, h, hx, hy => by
    rw [List.map_cons, List.map_cons, List.cons_append, List.cons_append, List.compare_cons_cons,
      List.compare_cons_cons, h a List.mem_cons_self b List.mem_cons_self, Ordering.swap_then,
      compare_map_swap ht (fun u hu v hv => h u (List.mem_cons_of_mem a hu) v (List.mem_cons_of_mem b hv))
        (fun u hu => hx u (List.mem_cons_of_mem a hu)) fun v hv => hy v (List.mem_cons_of_mem b hv)]

section Lawful

variable [LawfulEqOrd α]

theorem settled_refl : ∀ x : List α, Settled .eq x x
  | [] => settled_nil
  | a :: x => by
    have h := (settled_refl x).cons a a
    rwa [Std.compare_self] at h

/-- What a settled pair looks like from its first letter. -/
theorem Settled.cases {o : Ordering} {x y : List α} (h : Settled o x y) :
    (x = [] ∧ y = [] ∧ o = .eq) ∨
    (∃ a b x' y', x = a :: x' ∧ y = b :: y' ∧ compare a b ≠ .eq ∧ o = compare a b) ∨
    (∃ a x' y', x = a :: x' ∧ y = a :: y' ∧ Settled o x' y') := by
  match x, y with
  | [], [] => exact .inl ⟨rfl, rfl, h.compare_eq.symm⟩
  | [], b :: y =>
    -- appending `b :: y` on the left makes the two sides equal, so `o` would be `eq`
    have h1 := h (b :: y) []
    rw [List.nil_append, List.append_nil, Std.compare_self] at h1
    have h2 := Ordering.then_eq_eq.mp h1.symm
    rw [List.compare_cons_nil] at h2
    exact absurd h2.2 (by decide)
  | a :: x, [] =>
    have h1 := h [] (a :: x)
    rw [List.nil_append, List.append_nil, Std.compare_self] at h1
    have h2 := Ordering.then_eq_eq.mp h1.symm
    rw [List.compare_nil_cons] at h2
    exact absurd h2.2 (by decide)
  | a :: x, b :: y =>
    right
    by_cases hab : compare a b = .eq
    · obtain rfl := Std.compare_eq_iff_eq.mp hab
      refine .inr ⟨a, x, y, rfl, rfl, ?_⟩
      intro s t
      have h1 := h s t
      rwa [List.cons_append, List.cons_append, List.compare_cons_cons, hab] at h1
    · refine .inl ⟨a, b, x, y, rfl, rfl, hab, ?_⟩
      have h1 := h.compare_eq
      rw [List.compare_cons_cons] at h1
      rw [← h1]
      cases hc : compare a b with
      | eq => exact absurd hc hab
      | lt => rfl
      | gt => rfl

/-- A map of the letters that turns their order by `g` turns a settled pair by `g`. -/
theorem Settled.map {β : Type*} [Ord β] [LawfulEqOrd β] {g : Ordering → Ordering} {f : α → β}
    (hg : ∀ o, g o = .eq ↔ o = .eq) {o : Ordering} : ∀ {x y : List α},
    (∀ a ∈ x, ∀ b ∈ y, compare (f a) (f b) = g (compare a b)) → Settled o x y →
    Settled (g o) (x.map f) (y.map f) := by
  intro x
  induction x with
  | nil =>
    intro y hf h
    rcases h.cases with ⟨-, rfl, rfl⟩ | ⟨a, b, x', y', hx, -⟩ | ⟨a, x', y', hx, -⟩
    · rw [(hg .eq).mpr rfl]
      exact settled_nil
    · cases hx
    · cases hx
  | cons a x ih =>
    intro y hf h
    rcases h.cases with ⟨hx, -⟩ | ⟨a', b, x', y', hx, rfl, hne, rfl⟩ | ⟨a', x', y', hx, rfl, h'⟩
    · cases hx
    · cases hx
      have hab := hf a List.mem_cons_self b List.mem_cons_self
      rw [List.map_cons, List.map_cons, ← hab]
      refine (settled_singleton (f a) (f b)).extend ?_ _ _
      rw [hab]
      exact fun he => hne ((hg _).mp he)
    · cases hx
      have h1 := (ih (fun u hu v hv => hf u (List.mem_cons_of_mem a hu) v
        (List.mem_cons_of_mem a hv)) h').cons (f a) (f a)
      rwa [Std.compare_self] at h1

end Lawful

/-! ## Open pairs -/

section Open

/-- `x` and `y` compare as `o`, also once the separator `z z` closes them. -/
structure Open (z : α) (o : Ordering) (x y : List α) : Prop where
  compare_eq : compare x y = o
  settled : Settled o (x ++ [z, z]) (y ++ [z, z])

theorem Open.swap [Std.OrientedOrd α] {z : α} {o : Ordering} {x y : List α} (h : Open z o x y) :
    Open z o.swap y x := by
  refine ⟨?_, h.settled.swap⟩
  rw [Std.OrientedOrd.eq_swap, h.compare_eq]

theorem Settled.appendOpen {z : α} {o o' : Ordering} {x y x' y' : List α} (h : Settled o x y)
    (h' : Open z o' x' y') : Open z (o.then o') (x ++ x') (y ++ y') := by
  constructor
  · rw [h, h'.compare_eq]
  · rw [List.append_assoc, List.append_assoc]
    exact h.append h'.settled

theorem Open.cons {z : α} {o : Ordering} {x y : List α} (a b : α) (h : Open z o x y) :
    Open z ((compare a b).then o) (a :: x) (b :: y) :=
  (settled_singleton a b).appendOpen h

variable [LawfulEqOrd α]

theorem Settled.toOpen {o : Ordering} {x y : List α} (z : α) (h : Settled o x y) : Open z o x y := by
  refine ⟨h.compare_eq, ?_⟩
  have h1 := h.append (settled_refl [z, z])
  rwa [Ordering.then_eq] at h1

variable [DecidableEq α] {z e : α}

/-- Escaping keeps the order, and an escaped string is closed by `z z`. -/
theorem open_escape (hz : ∀ a, a ≠ z → compare z a = .lt) (hz' : ∀ a, a ≠ z → compare a z = .gt)
    (he : e ≠ z) : ∀ x y : List α, Open z (compare x y) (escape z e x) (escape z e y) := by
  -- the shorter string ends in `z z`, which is below both `z e` and any other letter
  have hlt : ∀ b (y : List α), Open z .lt [] (escape z e (b :: y)) := by
    intro b y
    by_cases hb : b = z
    · subst hb
      rw [escape_cons_zero]
      refine ⟨rfl, fun s t => ?_⟩
      simp [List.compare_cons_cons, Std.compare_self, hz e he]
    · rw [escape_cons_of_ne _ _ hb]
      refine ⟨rfl, fun s t => ?_⟩
      simp [List.compare_cons_cons, hz b hb]
  have hgt : ∀ b (x : List α), Open z .gt (escape z e (b :: x)) [] := by
    intro b x
    by_cases hb : b = z
    · subst hb
      rw [escape_cons_zero]
      refine ⟨rfl, fun s t => ?_⟩
      simp [List.compare_cons_cons, Std.compare_self, hz' e he]
    · rw [escape_cons_of_ne _ _ hb]
      refine ⟨rfl, fun s t => ?_⟩
      simp [List.compare_cons_cons, hz' b hb]
  intro x
  induction x with
  | nil =>
    intro y
    cases y with
    | nil => exact settled_nil.toOpen z
    | cons b y => exact hlt b y
  | cons a x ih =>
    intro y
    cases y with
    | nil => exact hgt a x
    | cons b y =>
      rw [List.compare_cons_cons]
      by_cases ha : a = z
      · by_cases hb : b = z
        · subst ha hb
          rw [escape_cons_zero, escape_cons_zero]
          have h1 := ((ih y).cons e e).cons b b
          rw [Std.compare_self, Std.compare_self] at h1
          rw [Std.compare_self]
          exact h1
        · rw [ha, hz b hb, escape_cons_zero, escape_cons_of_ne _ _ hb]
          have h1 := (settled_singleton z b).extend (by rw [hz b hb]; decide)
            (e :: escape z e x) (escape z e y)
          rw [hz b hb] at h1
          exact h1.toOpen z
      · by_cases hb : b = z
        · rw [hb, hz' a ha, escape_cons_zero, escape_cons_of_ne _ _ ha]
          have h1 := (settled_singleton a z).extend (by rw [hz' a ha]; decide)
            (escape z e x) (e :: escape z e y)
          rw [hz' a ha] at h1
          exact h1.toOpen z
        · rw [escape_cons_of_ne _ _ ha, escape_cons_of_ne _ _ hb]
          exact (ih y).cons a b

/-- Whatever compares as `o` is settled at `o` once escaped and closed. -/
theorem settled_escape_sep (hz : ∀ a, a ≠ z → compare z a = .lt)
    (hz' : ∀ a, a ≠ z → compare a z = .gt) (he : e ≠ z) {o : Ordering} {x y : List α}
    (h : compare x y = o) :
    Settled o (escape z e x ++ [z, z]) (escape z e y ++ [z, z]) := by
  rw [← h]
  exact (open_escape hz hz' he x y).settled

/-- A closed string with more behind it, against a bare one of another text. -/
theorem open_closed_bare (hz : ∀ a, a ≠ z → compare z a = .lt)
    (hz' : ∀ a, a ≠ z → compare a z = .gt) (he : e ≠ z) {x y : List α} (hxy : x ≠ y)
    (rest : List α) :
    Open z (compare x y) (escape z e x ++ [z, z] ++ rest) (escape z e y) := by
  have hne : compare x y ≠ .eq := fun h => hxy (Std.compare_eq_iff_eq.mp h)
  refine ⟨?_, ?_⟩
  · -- the separator is below whatever a longer text goes on with
    clear hne
    induction x generalizing y with
    | nil =>
      cases y with
      | nil => exact absurd rfl hxy
      | cons b y =>
        by_cases hb : b = z
        · subst hb
          simp [List.compare_cons_cons, Std.compare_self, hz e he]
        · simp [escape_cons_of_ne _ _ hb, List.compare_cons_cons, hz b hb]
    | cons a x ih =>
      cases y with
      | nil =>
        by_cases ha : a = z
        · subst ha
          simp
        · simp [escape_cons_of_ne _ _ ha]
      | cons b y =>
        have ih' : a = b → compare (escape z e x ++ [z, z] ++ rest) (escape z e y) = compare x y := by
          rintro rfl
          exact ih fun h => hxy (by rw [h])
        by_cases ha : a = z
        · by_cases hb : b = z
          · subst ha hb
            rw [escape_cons_zero, escape_cons_zero, List.compare_cons_cons, ← ih' rfl]
            simp [List.compare_cons_cons, Std.compare_self]
          · subst ha
            rw [escape_cons_zero, escape_cons_of_ne _ _ hb]
            simp [List.compare_cons_cons, hz b hb]
        · by_cases hb : b = z
          · subst hb
            rw [escape_cons_zero, escape_cons_of_ne _ _ ha]
            simp [List.compare_cons_cons, hz' a ha]
          · rw [escape_cons_of_ne _ _ ha, escape_cons_of_ne _ _ hb, List.compare_cons_cons]
            by_cases hab : a = b
            · subst hab
              rw [← ih' rfl]
              simp [List.compare_cons_cons]
            · have hc : compare a b ≠ .eq := fun h => hab (Std.compare_eq_iff_eq.mp h)
              simp only [List.cons_append, List.compare_cons_cons]
              cases h : compare a b with
              | eq => exact absurd h hc
              | lt => rfl
              | gt => rfl
  · have h := (open_escape hz hz' he x y).settled.extend hne (rest ++ [z, z]) []
    rwa [List.append_nil, ← List.append_assoc] at h

end Open

/-! ## Big-endian integers -/

/-- The big-endian bytes of a `w`-byte integer. -/
def beBytes : (w : ℕ) → ℕ → List UInt8
  | 0, _ => []
  | w + 1, n => UInt8.ofNat (n / 256 ^ w) :: beBytes w (n % 256 ^ w)

/-- The integer of big-endian bytes. -/
def ofBeBytes : List UInt8 → ℕ
  | [] => 0
  | b :: bs => b.toNat * 256 ^ bs.length + ofBeBytes bs

@[simp] theorem length_beBytes (w n : ℕ) : (beBytes w n).length = w := by
  induction w generalizing n with
  | zero => rfl
  | succ w ih => simp [beBytes, ih]

theorem ofBeBytes_beBytes {w n : ℕ} (h : n < 256 ^ w) : ofBeBytes (beBytes w n) = n := by
  induction w generalizing n with
  | zero =>
    rw [pow_zero] at h
    simp only [beBytes, ofBeBytes]
    omega
  | succ w ih =>
    have hp : 0 < 256 ^ w := by positivity
    have hd : n / 256 ^ w < 256 := by
      rw [Nat.div_lt_iff_lt_mul hp, ← pow_succ']
      exact h
    rw [beBytes, ofBeBytes, ih (Nat.mod_lt _ hp), length_beBytes, UInt8.toNat_ofNat_of_lt' hd]
    exact Nat.div_add_mod' n (256 ^ w)

theorem compare_toNat (a b : UInt8) : compare a b = compare a.toNat b.toNat := by
  have h : ∀ x y : UInt8, x = y ↔ x.toNat = y.toNat := fun x y => UInt8.toNat_inj.symm
  change compareOfLessAndEq a b = compareOfLessAndEq a.toNat b.toNat
  simp only [compareOfLessAndEq, UInt8.lt_iff_toNat_lt, h]

theorem compare_ofNat {a b : ℕ} (ha : a < 256) (hb : b < 256) :
    compare (UInt8.ofNat a) (UInt8.ofNat b) = compare a b := by
  rw [compare_toNat, UInt8.toNat_ofNat_of_lt' ha, UInt8.toNat_ofNat_of_lt' hb]

/-- Big-endian bytes of one width are in the order of their integers. -/
theorem settled_beBytes {w n m : ℕ} (hn : n < 256 ^ w) (hm : m < 256 ^ w) :
    Settled (compare n m) (beBytes w n) (beBytes w m) := by
  induction w generalizing n m with
  | zero =>
    rw [pow_zero] at hn hm
    have h : n = m := by omega
    rw [h, compare_eq_iff_eq.mpr rfl]
    exact settled_nil
  | succ w ih =>
    have hp : 0 < 256 ^ w := by positivity
    have hdn : n / 256 ^ w < 256 := by
      rw [Nat.div_lt_iff_lt_mul hp, ← pow_succ']
      exact hn
    have hdm : m / 256 ^ w < 256 := by
      rw [Nat.div_lt_iff_lt_mul hp, ← pow_succ']
      exact hm
    have h := (ih (Nat.mod_lt n hp) (Nat.mod_lt m hp)).cons
      (UInt8.ofNat (n / 256 ^ w)) (UInt8.ofNat (m / 256 ^ w))
    rw [compare_ofNat hdn hdm] at h
    have hcmp : (compare (n / 256 ^ w) (m / 256 ^ w)).then
        (compare (n % 256 ^ w) (m % 256 ^ w)) = compare n m := by
      have h1 := Nat.div_add_mod n (256 ^ w)
      have h2 := Nat.div_add_mod m (256 ^ w)
      have h3 := Nat.mod_lt n hp
      have h4 := Nat.mod_lt m hp
      generalize 256 ^ w = p at *
      rcases lt_trichotomy (n / p) (m / p) with h | h | h
      · rw [compare_lt_iff_lt.mpr h, Ordering.lt_then, eq_comm, compare_lt_iff_lt]
        exact Nat.lt_of_div_lt_div h
      · rw [compare_eq_iff_eq.mpr h, Ordering.eq_then]
        rcases lt_trichotomy (n % p) (m % p) with h' | h' | h'
        · rw [compare_lt_iff_lt.mpr h', eq_comm, compare_lt_iff_lt, ← h1, ← h2, h]
          omega
        · rw [compare_eq_iff_eq.mpr h', eq_comm, compare_eq_iff_eq, ← h1, ← h2, h, h']
        · rw [compare_gt_iff_gt.mpr h', eq_comm, compare_gt_iff_gt, ← h1, ← h2, h]
          omega
      · rw [compare_gt_iff_gt.mpr h, Ordering.gt_then, eq_comm, compare_gt_iff_gt]
        exact Nat.lt_of_div_lt_div h
    rw [hcmp] at h
    exact h

end ByteOrder
