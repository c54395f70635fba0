/-
  `geohash2d.rs`: unions of cells. `normalize` sorts them, drops what another holds and joins four quarters into their
  cell; `difference` takes from one union the keys of another.

  `normalize_spec`: the keys stay, and no two of the result share one nor are four of them a cell's quarters.
  `covered_difference`: the keys of the first and not of the second, each in one cell.
-/
import Secantus.Geohash.Cell

namespace Secantus.Geohash

open Library GeoHash

variable {c d id p : GeoHash} {l output rest : List GeoHash}

/-! ## `normalize` -/

/-- Whether the cells have this parent; those after one that has not are not asked. -/
def sameParent (parent : GeoHash) : List GeoHash → Option Bool
  | [] => some true
  | c :: cs => do
    if parent ≠ (← c.parent) then return false
    sameParent parent cs

/-- The `while` loop of `normalize` and the push after it, the last cell of `output` first. -/
def mergeUp : List GeoHash → GeoHash → Option (List GeoHash)
  | c :: b :: a :: rest, id =>
    if (a.hash ^^^ b.hash ^^^ c.hash) ≠ id.hash then some (id :: c :: b :: a :: rest)
    else do
      let parent ← id.parent
      if ← sameParent parent [a, b, c] then mergeUp rest parent
      else some (id :: c :: b :: a :: rest)
  | output, id => some (id :: output)

/-- One cell of the sorted list. -/
def absorb (output : List GeoHash) (id : GeoHash) : Option (List GeoHash) :=
  match output with
  | last :: rest => if last.contains id then some (last :: rest) else mergeUp (last :: rest) id
  | [] => mergeUp [] id

/-- `R2CellUnion::normalize`; nothing when it would ask the root for its parent. -/
def normalize (cells : List GeoHash) : Option (List GeoHash) := do
  let output ← (cells.mergeSort fun a b => (a.cmp b).isLE).foldlM absorb []
  return output.reverse

/-- No cell has all its quarters among them. -/
def NoQuarters (l : List GeoHash) : Prop := ∀ (p : GeoHash) children, p.subdivide = some children → ¬ children ⊆ l

/-- The last cell first, in order and apart, no four of them to be joined. -/
structure Stack (output : List GeoHash) : Prop where
  apart : output.Pairwise fun a b => cells.Before b a
  whole : NoQuarters output

theorem sameParent_eq {parent : GeoHash} (h : ∀ c ∈ l, ∃ q, c.parent = some q) :
    sameParent parent l = some (decide (∀ c ∈ l, c.parent = some parent)) := by
  induction l with
  | nil => rfl
  | cons c cs ih =>
    obtain ⟨q, hq⟩ := h c List.mem_cons_self
    have ih := ih fun c' hc' => h c' (List.mem_cons_of_mem _ hc')
    rw [sameParent, hq]
    by_cases hpq : parent = q
    · subst hpq
      simp [hq, ih]
    · have hqp : ¬ q = parent := fun h => hpq h.symm
      simp [hq, hpq, hqp]

/-- A cell on the stack that ends where one after all of them begins is the last. -/
theorem head_of_touching (hl : output.Pairwise fun a b => cells.Before b a) (hbefore : ∀ a ∈ output, cells.Before a d)
    (hc : c ∈ output) (htouch : c.hash.toNat + c.width = d.hash.toNat) : ∃ rest, output = c :: rest := by
  cases output with
  | nil => cases hc
  | cons last rest =>
    rcases List.mem_cons.mp hc with rfl | hc
    · exact ⟨rest, rfl⟩
    · have h1 := GeoHash.before_iff.mp ((List.pairwise_cons.mp hl).1 c hc)
      have h2 := GeoHash.before_iff.mp (hbefore last List.mem_cons_self)
      have hpos := last.width_pos
      omega

/-- Where the last cell completes four quarters, the other three are right below it. -/
theorem quarters_on_top (hl : output.Pairwise fun a b => cells.Before b a) (hbefore : ∀ a ∈ output, cells.Before a id)
    (hwhole : NoQuarters output) (h : ¬ NoQuarters (id :: output)) :
    ∃ p a b c rest, output = c :: b :: a :: rest ∧ Quarter p 0 a ∧ Quarter p 1 b ∧ Quarter p 2 c ∧ Quarter p 3 id := by
  obtain ⟨p, children, hsub, hall⟩ : ∃ (p : GeoHash) (children : List GeoHash), p.subdivide = some children ∧
      children ⊆ id :: output := by
    by_contra hno
    exact h fun p children hsub hall => hno ⟨p, children, hsub, hall⟩
  obtain ⟨c0, c1, c2, c3, rfl, h0, h1, h2, h3⟩ := subdivide_eq_some.mp hsub
  simp only [List.cons_subset, List.nil_subset, and_true, List.mem_cons] at hall
  obtain ⟨hm0, hm1, hm2, hm3⟩ := hall
  -- One with a later quarter beside it is not the last cell.
  have hnot : ∀ {j k : ℕ} {e e' : GeoHash}, Quarter p j e → Quarter p k e' → j < k → (e = id ∨ e ∈ output) →
      (e' = id ∨ e' ∈ output) → e ∈ output := by
    intro j k e e' he he' hjk hmem hmem'
    rcases hmem with rfl | hmem
    · have hb := (he.before_iff he').mpr hjk
      rcases hmem' with rfl | hmem'
      · exact absurd rfl (he.ne he' hjk)
      · exact absurd (Nested.Inside.refl _) ((hb.trans (hbefore e' hmem')).not_inside)
    · exact hmem
  have hin0 := hnot h0 h1 (by omega) hm0 hm1
  have hin1 := hnot h1 h2 (by omega) hm1 hm2
  have hin2 := hnot h2 h3 (by omega) hm2 hm3
  have hid : c3 = id := by
    rcases hm3 with hid | hin3
    · exact hid
    · exact absurd (by simp [hin0, hin1, hin2, hin3]) (hwhole p _ hsub)
  subst hid
  obtain ⟨r2, rfl⟩ := head_of_touching hl hbefore hin2 (h2.touches h3)
  have hl2 := List.pairwise_cons.mp hl
  have hin1' : c1 ∈ r2 := List.mem_of_ne_of_mem (h1.ne h2 (by omega)) hin1
  have hin0' : c0 ∈ r2 := List.mem_of_ne_of_mem (h0.ne h2 (by omega)) hin0
  obtain ⟨r1, rfl⟩ := head_of_touching hl2.2 hl2.1 hin1' (h1.touches h2)
  have hl1 := List.pairwise_cons.mp hl2.2
  have hin0'' : c0 ∈ r1 := List.mem_of_ne_of_mem (h0.ne h1 (by omega)) hin0'
  obtain ⟨r0, rfl⟩ := head_of_touching hl1.2 hl1.1 hin0'' (h0.touches h1)
  exact ⟨p, c0, c1, c2, r0, rfl, h0, h1, h2, h3⟩

/-- Cells apart with one parent are its four quarters in order. -/
theorem quarters_of_parents {a b c : GeoHash} (hab : cells.Before a b) (hbc : cells.Before b c) (hcid : cells.Before c id)
    (ha : a.parent = some p) (hb : b.parent = some p) (hc : c.parent = some p) (hid : id.parent = some p) :
    Quarter p 0 a ∧ Quarter p 1 b ∧ Quarter p 2 c ∧ Quarter p 3 id := by
  obtain ⟨i, hi, ha⟩ := parent_eq_some.mp ha
  obtain ⟨j, hj, hb⟩ := parent_eq_some.mp hb
  obtain ⟨k, hk, hc⟩ := parent_eq_some.mp hc
  obtain ⟨m, hm, hid⟩ := parent_eq_some.mp hid
  have hij := (ha.before_iff hb).mp hab
  have hjk := (hb.before_iff hc).mp hbc
  have hkm := (hc.before_iff hid).mp hcid
  obtain rfl : i = 0 := by omega
  obtain rfl : j = 1 := by omega
  obtain rfl : k = 2 := by omega
  obtain rfl : m = 3 := by omega
  exact ⟨ha, hb, hc, hid⟩

theorem Stack.tail (h : Stack (c :: output)) : Stack output :=
  ⟨(List.pairwise_cons.mp h.apart).2, fun p children hsub hin => h.whole p children hsub (List.Subset.trans hin (List.subset_cons_self _ _))⟩

/-- What the loop and the push after it leave of `output` and the new cell: their keys, and no cells but those of
    `output` and what the new one is in. -/
structure Taken (output : List GeoHash) (id : GeoHash) (output' : List GeoHash) : Prop where
  stack : Stack output'
  covered : cells.covered output' = cells.covered (id :: output)
  places : ∀ a ∈ output', a ∈ output ∨ cells.Inside id a

theorem taken_push (hs : Stack output) (hbefore : ∀ a ∈ output, cells.Before a id) (hno : NoQuarters (id :: output)) :
    Taken output id (id :: output) := by
  refine ⟨⟨List.pairwise_cons.mpr ⟨hbefore, hs.apart⟩, hno⟩, rfl, fun a ha => ?_⟩
  rcases List.mem_cons.mp ha with rfl | ha
  · exact Or.inr (Nested.Inside.refl _)
  · exact Or.inl ha

/-- Four quarters on top of the stack are as good as their cell. -/
theorem taken_join {a b c : GeoHash} {output' : List GeoHash} (ha : Quarter p 0 a) (hb : Quarter p 1 b) (hc : Quarter p 2 c)
    (hid : Quarter p 3 id) (h : Taken rest p output') : Taken (c :: b :: a :: rest) id output' := by
  refine ⟨h.stack, ?_, fun e he => ?_⟩
  · rw [h.covered]
    simp only [Nested.covered_cons, ← ha.keys_eq hb hc hid, Nested.covered_nil, Set.union_empty]
    ext k
    simp only [Set.mem_union]
    tauto
  · rcases h.places e he with hmem | hin
    · exact Or.inl (by simp [hmem])
    · exact Or.inr ((hid.inside (by omega)).trans hin)

theorem mergeUp_spec (output : List GeoHash) (id : GeoHash) (hs : Stack output) (hbefore : ∀ a ∈ output, cells.Before a id) :
    ∃ output', mergeUp output id = some output' ∧ Taken output id output' := by
  fun_induction mergeUp output id with
  | case1 c b a rest id hne =>
    -- Four quarters would pass the test of the hashes.
    refine ⟨_, rfl, taken_push hs hbefore ?_⟩
    by_contra hno
    obtain ⟨p, a', b', c', rest', heq, ha, hb, hc, hid⟩ := quarters_on_top hs.apart hbefore hs.whole hno
    obtain ⟨rfl, rfl, rfl, rfl⟩ : c = c' ∧ b = b' ∧ a = a' ∧ rest = rest' := by simpa using heq
    exact hne (ha.xor_hash hb hc hid)
  | case2 c b a rest id _ ih =>
    have hac := List.pairwise_cons.mp hs.apart
    have hbc := List.pairwise_cons.mp hac.2
    have hbid : cells.Before c id := hbefore c (by simp)
    have hcb : cells.Before b c := hac.1 b (by simp)
    have hba : cells.Before a b := hbc.1 a (by simp)
    obtain ⟨hpc, p, hp⟩ := parent_of_before hbid
    have hsame := @sameParent_eq [a, b, c] p (by
      simp only [List.mem_cons, List.not_mem_nil, or_false, forall_eq_or_imp, forall_eq]
      exact ⟨(parent_of_before hba).1, (parent_of_before hba).2, hpc⟩)
    rw [hp]
    simp only [Option.bind_eq_bind, Option.bind_some, hsame]
    by_cases hall : ∀ e ∈ [a, b, c], e.parent = some p
    · rw [if_pos (decide_eq_true hall)]
      obtain ⟨ha, hb, hc, hid⟩ := quarters_of_parents hba hcb hbid (hall a (by simp)) (hall b (by simp)) (hall c (by simp)) hp
      have hrest : ∀ e ∈ rest, cells.Before e p := by
        intro e he
        have hea := GeoHash.before_iff.mp ((List.pairwise_cons.mp hbc.2).1 e he)
        rw [ha.hash_eq, Nat.zero_mul, Nat.add_zero] at hea
        exact GeoHash.before_iff.mpr hea
      obtain ⟨output', heq, htaken⟩ := ih p hs.tail.tail.tail hrest
      exact ⟨output', heq, taken_join ha hb hc hid htaken⟩
    · rw [if_neg (by simpa using hall)]
      refine ⟨_, rfl, taken_push hs hbefore ?_⟩
      by_contra hno
      obtain ⟨q, a', b', c', rest', heq, ha, hb, hc, hid⟩ := quarters_on_top hs.apart hbefore hs.whole hno
      obtain ⟨rfl, rfl, rfl, rfl⟩ : c = c' ∧ b = b' ∧ a = a' ∧ rest = rest' := by simpa using heq
      obtain rfl : p = q := Option.some.inj (hp.symm.trans (parent_eq_some.mpr ⟨3, by omega, hid⟩))
      apply hall
      simp only [List.mem_cons, List.not_mem_nil, or_false, forall_eq_or_imp, forall_eq]
      exact ⟨parent_eq_some.mpr ⟨0, by omega, ha⟩, parent_eq_some.mpr ⟨1, by omega, hb⟩,
        parent_eq_some.mpr ⟨2, by omega, hc⟩⟩
  | case3 output id hshape =>
    refine ⟨_, rfl, taken_push hs hbefore ?_⟩
    by_contra hno
    obtain ⟨-, a, b, c, rest, heq, -⟩ := quarters_on_top hs.apart hbefore hs.whole hno
    exact hshape c b a rest heq

theorem absorb_spec (hs : Stack output) (hahead : ∀ a ∈ output, cells.Ahead a id) :
    ∃ output', absorb output id = some output' ∧ Taken output id output' := by
  rcases Nested.head_or_before hs.apart hahead with ⟨last, rest, rfl, hin⟩ | hbefore
  · refine ⟨last :: rest, ?_, hs, ?_, fun a ha => Or.inl ha⟩
    · rw [absorb, if_pos (contains_iff.mpr hin)]
    · ext k
      have hkeys := Nested.inside_iff_keys.mp hin
      simp only [Nested.covered_cons, Set.mem_union]
      constructor
      · exact Or.inr
      · rintro (hk | hk)
        · exact Or.inl (hkeys hk)
        · exact hk
  · obtain ⟨output', heq, htaken⟩ := mergeUp_spec output id hs hbefore
    refine ⟨output', ?_, htaken⟩
    cases output with
    | nil => exact heq
    | cons last rest =>
      have hno : ¬ last.contains id = true := fun hin =>
        (hbefore last List.mem_cons_self).not_inside (contains_iff.mp hin)
      rw [absorb, if_neg hno, heq]

/-- The cells of the sorted list one after another. -/
theorem foldlM_absorb (l : List GeoHash) (output : List GeoHash) (hs : Stack output) (hsorted : l.Pairwise cells.Ahead)
    (hahead : ∀ a ∈ output, ∀ c ∈ l, cells.Ahead a c) :
    ∃ output', l.foldlM absorb output = some output' ∧ Stack output' ∧
      cells.covered output' = cells.covered output ∪ cells.covered l := by
  induction l generalizing output with
  | nil => exact ⟨output, rfl, hs, by simp⟩
  | cons id l ih =>
    obtain ⟨hid, hl⟩ := List.pairwise_cons.mp hsorted
    obtain ⟨output₁, heq, htaken⟩ := absorb_spec hs fun a ha => hahead a ha id List.mem_cons_self
    have hahead₁ : ∀ a ∈ output₁, ∀ c ∈ l, cells.Ahead a c := by
      intro a ha c hc
      rcases htaken.places a ha with hmem | hin
      · exact hahead a hmem c (List.mem_cons_of_mem _ hc)
      · exact hin.ahead.trans (hid c hc)
    obtain ⟨output', heq', hs', hcov⟩ := ih output₁ htaken.stack hl hahead₁
    refine ⟨output', ?_, hs', ?_⟩
    · rw [List.foldlM_cons, heq]
      exact heq'
    · rw [hcov, htaken.covered]
      simp only [Nested.covered_cons]
      ext k
      simp only [Set.mem_union]
      tauto

/-- A normalised union: sorted, no key in two cells, no cell in its four quarters. -/
structure Normalised (l : List GeoHash) : Prop where
  sorted : l.Pairwise fun a b => a.cmp b = .lt
  disjoint : l.Pairwise fun a b => Disjoint a.keys b.keys
  whole : NoQuarters l

/-- The keys of a union. -/
def covered (l : List GeoHash) : Set ℕ := {k | ∃ c ∈ l, k ∈ c.keys}

theorem cmp_eq_lt_of_before (h : cells.Before c d) : c.cmp d = .lt := by
  rw [cmp_eq_lt]
  intro hdc
  rcases hdc.inside_or_before with hin | hb
  · exact h.not_inside' hin
  · exact (h.trans hb).not_inside (Nested.Inside.refl _)

theorem Normalised.apart (h : Normalised l) : cells.Apart l := by
  refine (h.sorted.and h.disjoint).imp fun {a b} hab => ?_
  rcases Nested.before_or_before (N := cells) hab.2 with hb | hb
  · exact hb
  · exact absurd hb.ahead (cmp_eq_lt.mp hab.1)

theorem isLE_cmp_total (a b : GeoHash) : ((a.cmp b).isLE || (b.cmp a).isLE) = true := by
  by_cases h : cells.Ahead b a
  · simp [isLE_cmp.mpr h]
  · simp [cmp_eq_lt.mpr h, Ordering.isLE]

/-- `normalize` keeps the keys, and its result is normalised; it never asks the root for a parent. -/
theorem normalize_spec (l : List GeoHash) :
    ∃ output, normalize l = some output ∧ covered output = covered l ∧ Normalised output := by
  have hsorted : (l.mergeSort fun a b => (a.cmp b).isLE).Pairwise cells.Ahead := by
    refine (List.pairwise_mergeSort (fun a b c hab hbc => ?_) isLE_cmp_total l).imp fun {a b} h => isLE_cmp.mp h
    exact isLE_cmp.mpr ((isLE_cmp.mp hab).trans (isLE_cmp.mp hbc))
  have hnil : Stack [] := ⟨List.Pairwise.nil, fun p children hsub hin => by
    obtain ⟨c0, c1, c2, c3, rfl, -⟩ := subdivide_eq_some.mp hsub
    simp at hin⟩
  obtain ⟨output, heq, hs, hcov⟩ := foldlM_absorb _ [] hnil hsorted (by simp)
  have hapart : output.reverse.Pairwise cells.Before := List.pairwise_reverse.mpr hs.apart
  refine ⟨output.reverse, ?_, ?_, hapart.imp cmp_eq_lt_of_before, hapart.imp fun h => h.disjoint, ?_⟩
  · rw [normalize, heq]
    rfl
  · show cells.covered output.reverse = cells.covered l
    rw [Nested.covered_perm (List.reverse_perm output), hcov, Nested.covered_nil, Set.empty_union,
      Nested.covered_perm (List.mergeSort_perm l _)]
  · intro p children hsub hin
    exact hs.whole p children hsub (fun c hc => List.mem_reverse.mp (hin hc))

/-! ## `difference` -/

def unionContains (union : List GeoHash) (id : GeoHash) : Bool :=
  let i := partitionPoint (fun c => (c.cmp id).isLE) union
  decide (0 < i) && union[i - 1]?.any (·.contains id)

def unionIntersects (union : List GeoHash) (id : GeoHash) : Bool :=
  let i := partitionPoint (fun c => c.cmp id == .lt) union
  if union[i]?.any (id.contains ·) then true
  else decide (0 < i) && union[i - 1]?.any (·.contains id)

theorem bits_subdivide {children : List GeoHash} (h : id.subdivide = some children) :
    ∀ c ∈ children, c.bits = id.bits + 1 := by
  obtain ⟨c0, c1, c2, c3, rfl, h0, h1, h2, h3⟩ := subdivide_eq_some.mp h
  simp [h0.bits_eq, h1.bits_eq, h2.bits_eq, h3.bits_eq]

/-- What `difference_internal` pushes. -/
def differenceInternal (id : GeoHash) (union : List GeoHash) : List GeoHash :=
  if !unionIntersects union id then [id]
  else if !unionContains union id then
    match h : id.subdivide with
    | some children => children.attach.flatMap fun c => differenceInternal c.1 union
    | none => []
  else []
termination_by 32 - id.bits
decreasing_by
  have := bits_subdivide h c.1 c.2
  have := c.1.bits_le
  omega

/-- `R2CellUnion::getDifference`: the cells of `cells` not in `union`. -/
def difference (cells : List GeoHash) (union : List GeoHash) : List GeoHash :=
  cells.flatMap fun c => differenceInternal c union

theorem unionContains_iff (hl : cells.Apart l) : unionContains l id = true ↔ ∃ c ∈ l, cells.Inside id c := by
  unfold unionContains
  rw [Bool.and_eq_true, decide_eq_true_eq, Option.any_eq_true]
  constructor
  · rintro ⟨-, c, hc, hin⟩
    exact ⟨c, List.mem_of_getElem? hc, contains_iff.mp hin⟩
  · rintro ⟨c, hc, hin⟩
    have hp : ∀ a ∈ l, (a.cmp id).isLE = true ↔ cells.Ahead a id := fun a _ => isLE_cmp
    obtain ⟨hpos, hlast⟩ := Nested.inside_last hl (hl.partitioned (Or.inl hp)) (fun a ha => (hp a ha).mp) hc
      ((hp c hc).mpr hin.ahead) hin
    exact ⟨hpos, c, hlast, contains_iff.mpr hin⟩

/-- A cell of the union in `id` or around it is found on one side of the place of `id`. -/
theorem unionIntersects_iff (hl : cells.Apart l) :
    unionIntersects l id = true ↔ ∃ c ∈ l, cells.Inside c id ∨ cells.Inside id c := by
  have hp : ∀ a ∈ l, (a.cmp id == .lt) = true ↔ ¬ cells.Ahead id a := fun a _ => by rw [beq_iff_eq, cmp_eq_lt]
  unfold unionIntersects
  rw [Bool.if_true_left, Bool.or_eq_true, Bool.and_eq_true, decide_eq_true_eq, decide_eq_true_eq, Option.any_eq_true,
    Option.any_eq_true]
  constructor
  · rintro (⟨c, hc, hin⟩ | ⟨-, c, hc, hin⟩)
    · exact ⟨c, List.mem_of_getElem? hc, Or.inl (contains_iff.mp hin)⟩
    · exact ⟨c, List.mem_of_getElem? hc, Or.inr (contains_iff.mp hin)⟩
  · rintro ⟨c, hc, hin⟩
    by_cases hci : cells.Inside c id
    · obtain ⟨first, hfirst, hinside⟩ := Nested.first_inside hl hp hc hci
      exact Or.inl ⟨first, hfirst, contains_iff.mpr hinside⟩
    · have hic := hin.resolve_left hci
      have hnot : ¬ cells.Ahead id c := by
        intro hahead
        rcases hahead.inside_or_before with h | h
        · exact hci h
        · exact h.not_inside' hic
      have hahead : ∀ a ∈ l, (a.cmp id == .lt) = true → cells.Ahead a id := fun a ha h =>
        isLE_cmp.mp (by rw [beq_iff_eq.mp h]; rfl)
      obtain ⟨hpos, hlast⟩ := Nested.inside_last hl (hl.partitioned (Or.inr hp)) hahead hc ((hp c hc).mpr hnot) hic
      exact Or.inr ⟨hpos, c, hlast, contains_iff.mpr hic⟩

theorem inside_of_bits (h : cells.Inside c id) (hbits : id.bits = 32) : c = id := by
  obtain ⟨hlo, hhi⟩ := inside_iff.mp h
  have hwidth : id.width = 1 := by
    rw [width, hbits]
    rfl
  have hc := c.width_pos
  have hle : c.width ≤ id.width := by omega
  have := width_le_iff.mp hle
  have := c.bits_le
  refine GeoHash.ext (BitVec.eq_of_toNat_eq ?_) (by omega)
  omega

/-- What is pushed for a cell: its keys that the union does not have, in cells apart and inside it. -/
structure Remaining (id : GeoHash) (union out : List GeoHash) : Prop where
  covered : cells.covered out = cells.keys id \ cells.covered union
  apart : cells.Apart out
  inside : ∀ c ∈ out, cells.Inside c id

theorem covered_remaining {union : List GeoHash} {f : GeoHash → List GeoHash} (hf : ∀ c ∈ l, Remaining c union (f c)) :
    cells.covered (l.flatMap f) = cells.covered l \ cells.covered union := by
  rw [Nested.covered_flatMap]
  ext k
  constructor
  · rintro ⟨c, hc, hk⟩
    rw [(hf c hc).covered] at hk
    exact ⟨⟨c, hc, hk.1⟩, hk.2⟩
  · rintro ⟨⟨c, hc, hk⟩, hnot⟩
    refine ⟨c, hc, ?_⟩
    rw [(hf c hc).covered]
    exact ⟨hk, hnot⟩

theorem GeoHash.Quarter.apart {c0 c1 c2 c3 : GeoHash} (h0 : Quarter p 0 c0) (h1 : Quarter p 1 c1) (h2 : Quarter p 2 c2)
    (h3 : Quarter p 3 c3) : cells.Apart [c0, c1, c2, c3] := by
  have h01 := (h0.before_iff h1).mpr (by omega)
  have h12 := (h1.before_iff h2).mpr (by omega)
  have h23 := (h2.before_iff h3).mpr (by omega)
  simp only [Nested.Apart, List.pairwise_cons, List.mem_cons, List.not_mem_nil, or_false, forall_eq_or_imp, forall_eq]
  exact ⟨⟨h01, h01.trans h12, (h01.trans h12).trans h23⟩, ⟨h12, h12.trans h23⟩, h23, by simp, List.Pairwise.nil⟩

theorem differenceInternal_spec (hl : cells.Apart l) (id : GeoHash) : Remaining id l (differenceInternal id l) := by
  fun_induction differenceInternal id l with
  | case1 id h =>
    rw [Bool.not_eq_true', ← Bool.not_eq_true, unionIntersects_iff hl] at h
    refine ⟨?_, List.pairwise_singleton _ _, by simp [Nested.Inside.refl]⟩
    rw [Nested.covered_cons, Nested.covered_nil, Set.union_empty, eq_comm, sdiff_eq_left, Set.disjoint_left]
    rintro k hk ⟨c, hc, hkc⟩
    rcases cells.nested c id with hb | hb | hin | hin
    · exact Set.disjoint_left.mp (Nested.Before.disjoint hb) hkc hk
    · exact Set.disjoint_left.mp (Nested.Before.disjoint hb) hk hkc
    · exact h ⟨c, hc, Or.inl hin⟩
    · exact h ⟨c, hc, Or.inr hin⟩
  | case2 id h hcontains children hsub ih =>
    have hflat : (children.attach.flatMap fun c => differenceInternal c.1 l) =
        children.flatMap fun c => differenceInternal c l := by
      conv_rhs => rw [← List.attach_map_subtype_val children, List.flatMap_map]
    have hf : ∀ c ∈ children, Remaining c l (differenceInternal c l) := fun c hc => ih ⟨c, hc⟩
    obtain ⟨c0, c1, c2, c3, rfl, h0, h1, h2, h3⟩ := subdivide_eq_some.mp hsub
    rw [hflat]
    refine ⟨?_, (h0.apart h1 h2 h3).flatMap fun c hc => ⟨(hf c hc).apart, (hf c hc).inside⟩, ?_⟩
    · rw [covered_remaining hf, h0.keys_eq h1 h2 h3]
    · intro d hd
      obtain ⟨c, hc, hd⟩ := List.mem_flatMap.mp hd
      have hin : cells.Inside c id := by
        simp only [List.mem_cons, List.not_mem_nil, or_false] at hc
        rcases hc with rfl | rfl | rfl | rfl
        · exact h0.inside (by omega)
        · exact h1.inside (by omega)
        · exact h2.inside (by omega)
        · exact h3.inside (by omega)
      exact ((hf c hc).inside d hd).trans hin
  | case3 id h hcontains hsub =>
    -- At the last level a cell of the union in this one is this one.
    have hbits : id.bits = 32 := by
      by_contra hne
      obtain ⟨c0, c1, c2, c3, hsome, -⟩ := subdivide_quarters hne
      rw [hsub] at hsome
      cases hsome
    rw [Bool.not_eq_true', Bool.not_eq_false, unionIntersects_iff hl] at h
    rw [Bool.not_eq_true', ← Bool.not_eq_true, unionContains_iff hl] at hcontains
    obtain ⟨c, hc, hin | hin⟩ := h
    · rw [inside_of_bits hin hbits] at hc
      exact absurd ⟨id, hc, Nested.Inside.refl _⟩ hcontains
    · exact absurd ⟨c, hc, hin⟩ hcontains
  | case4 id h hcontains =>
    rw [Bool.not_eq_true', Bool.not_eq_false, unionContains_iff hl] at hcontains
    obtain ⟨c, hc, hin⟩ := hcontains
    refine ⟨?_, List.Pairwise.nil, by simp⟩
    rw [Nested.covered_nil, eq_comm, Set.sdiff_eq_empty]
    exact fun k hk => ⟨c, hc, Nested.inside_iff_keys.mp hin hk⟩

/-- `difference` leaves the keys of the first union that the second does not have, each in one cell. -/
theorem difference_spec {a b : List GeoHash} (ha : Normalised a) (hb : Normalised b) :
    covered (difference a b) = covered a \ covered b ∧
      (difference a b).Pairwise fun c d => Disjoint c.keys d.keys := by
  have hf : ∀ c ∈ a, Remaining c b (differenceInternal c b) := fun c _ => differenceInternal_spec hb.apart c
  refine ⟨covered_remaining hf, ?_⟩
  exact (ha.apart.flatMap fun c hc => ⟨(hf c hc).apart, (hf c hc).inside⟩).imp fun h => h.disjoint

/-- Cells are exact. What a cell is made from comes back as far as it keeps it; a full hash is in the cell where it is
    between `hashMin` and `hashMax`; the four cells of `subdivide` share no key and have the cell's; `normalize` keeps the
    keys and leaves a normalised union; and `difference` of normalised unions has the keys of the first and not of the
    second. -/
theorem cells_exact :
    (∀ (x y : BitVec 32) (bits : ℕ) (hbits : bits ≤ 32),
      (fromXY x y bits hbits).unhash = (keptBits bits x, keptBits bits y)) ∧
    (∀ c key : GeoHash, key.bits = 32 → (c.contains key = true ↔ c.hashMin ≤ key.hash ∧ key.hash ≤ c.hashMax)) ∧
    (∀ c : GeoHash, c.bits < 32 → ∃ children, c.subdivide = some children ∧ children.length = 4 ∧
      children.Pairwise (fun a b => Disjoint a.keys b.keys) ∧ covered children = c.keys) ∧
    (∀ l, ∃ output, normalize l = some output ∧ covered output = covered l ∧ Normalised output) ∧
    ∀ a b, Normalised a → Normalised b → covered (difference a b) = covered a \ covered b ∧
      (difference a b).Pairwise fun c d => Disjoint c.keys d.keys := by
  refine ⟨fun x y bits => unhash_fromXY_eq x y, fun c key hkey => ?_, fun c hc => ?_, normalize_spec,
    fun a b => difference_spec⟩
  · have hwidth : key.hashMax.toNat = key.hash.toNat := by
      rw [toNat_hashMax, width, hkey]
      rfl
    rw [contains_iff, BitVec.le_def, BitVec.le_def]
    show c.hashMin.toNat ≤ key.hash.toNat ∧ key.hashMax.toNat ≤ c.hashMax.toNat ↔ _
    rw [hwidth]
  · obtain ⟨c0, c1, c2, c3, hsub, h0, h1, h2, h3⟩ := subdivide_quarters (p := c) (by omega)
    exact ⟨_, hsub, rfl, (h0.apart h1 h2 h3).imp fun h => h.disjoint, h0.keys_eq h1 h2 h3⟩

end Secantus.Geohash
