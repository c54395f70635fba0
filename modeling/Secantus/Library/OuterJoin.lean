/-
  The two parts of an outer join of multisets, under any relation: the pairs that are related (`matched`) and
  the elements of one side that nothing on the other is related to (`dangling`). Both are sums over any
  division of the two sides into parts whose elements are related within a part only (`matched_sum`,
  `dangling_sum`).

  The product of a list of factors, built one factor at a time and cut off at a cap, and the elements of a list
  with a key that no earlier one has, where making a key may fail.

  * `pushAll_eq`: one factor's step is a prefix of the full step;
  * `mem_cappedProduct`, `cappedProduct_complete`: only combinations of the factors are built, and all of them
    when there are no more than the cap;
  * `distinct_spec`: what is kept has every key once.
-/
import Mathlib.Algebra.BigOperators.Group.Finset.Basic
import Mathlib.Algebra.Order.Group.Multiset
import Mathlib.Data.Multiset.Bind
import Mathlib.Algebra.BigOperators.Ring.List
import Mathlib.Algebra.GroupWithZero.Nat
import Mathlib.Data.List.Dedup
import Mathlib.Data.List.Forall2
import Mathlib.Data.List.Perm.Basic

namespace Secantus.Library

open Multiset

variable {α β ι : Type*} (rel : α → β → Prop)

/-- No element of `L` is related to one of `R`. -/
def Unrelated (L : Multiset α) (R : Multiset β) : Prop := ∀ a ∈ L, ∀ b ∈ R, ¬ rel a b

/-- Elements of different parts are unrelated. -/
def Separated (L : ι → Multiset α) (R : ι → Multiset β) : Prop := ∀ i j, i ≠ j → Unrelated rel (L i) (R j)

theorem Unrelated.flip {L : Multiset α} {R : Multiset β} (h : Unrelated rel L R) :
    Unrelated (fun b a => rel a b) R L := fun b hb a ha => h a ha b hb

theorem unrelated_sum {L : ι → Multiset α} {R : ι → Multiset β} (h : Separated rel L R) {s : Finset ι} {i : ι}
    (hi : i ∉ s) : Unrelated rel (L i) (∑ j ∈ s, R j) := by
  intro a ha b hb
  obtain ⟨j, hj, hbj⟩ := mem_sum.mp hb
  exact h i j (fun heq => hi (heq ▸ hj)) a ha b hbj

theorem sum_unrelated {L : ι → Multiset α} {R : ι → Multiset β} (h : Separated rel L R) {s : Finset ι} {i : ι}
    (hi : i ∉ s) : Unrelated rel (∑ j ∈ s, L j) (R i) := by
  intro a ha b hb
  obtain ⟨j, hj, haj⟩ := mem_sum.mp ha
  exact h j i (fun heq => hi (heq ▸ hj)) a haj b hb

variable [∀ a b, Decidable (rel a b)]

/-- The related pairs. -/
def matched (L : Multiset α) (R : Multiset β) : Multiset (α × β) := (L ×ˢ R).filter fun p => rel p.1 p.2

/-- The elements of `L` that nothing in `R` is related to. -/
def dangling (L : Multiset α) (R : Multiset β) : Multiset α := L.filter fun a => ∀ b ∈ R, ¬ rel a b

@[simp] theorem matched_zero_left (R : Multiset β) : matched rel 0 R = 0 := rfl

@[simp] theorem matched_zero_right (L : Multiset α) : matched rel L 0 = 0 := by
  rw [matched, product_zero, filter_zero]

@[simp] theorem dangling_zero_left (R : Multiset β) : dangling rel 0 R = 0 := rfl

@[simp] theorem dangling_zero_right (L : Multiset α) : dangling rel L 0 = L := by
  refine filter_eq_self.mpr fun a _ b hb => ?_
  exact absurd hb (notMem_zero b)

theorem matched_add_left (L L' : Multiset α) (R : Multiset β) :
    matched rel (L + L') R = matched rel L R + matched rel L' R := by
  rw [matched, add_product, filter_add]
  rfl

theorem matched_add_right (L : Multiset α) (R R' : Multiset β) :
    matched rel L (R + R') = matched rel L R + matched rel L R' := by
  rw [matched, product_add, filter_add]
  rfl

theorem matched_eq_zero {L : Multiset α} {R : Multiset β} (h : Unrelated rel L R) : matched rel L R = 0 := by
  refine filter_eq_nil.mpr fun p hp => ?_
  obtain ⟨hl, hr⟩ := mem_product.mp hp
  exact h p.1 hl p.2 hr

theorem matched_singleton (a : α) (R : Multiset β) :
    matched rel {a} R = (R.filter (rel a)).map (Prod.mk a) := by
  rw [matched, ← cons_zero, cons_product, zero_product, add_zero, filter_map]
  rfl

theorem dangling_add_left (L L' : Multiset α) (R : Multiset β) :
    dangling rel (L + L') R = dangling rel L R + dangling rel L' R := filter_add _ _ _

theorem dangling_eq_self {L : Multiset α} {R : Multiset β} (h : Unrelated rel L R) : dangling rel L R = L :=
  filter_eq_self.mpr h

/-- Elements nothing on this side is related to change nothing. -/
theorem dangling_add_right {L : Multiset α} {R R' : Multiset β} (h : Unrelated rel L R') :
    dangling rel L (R + R') = dangling rel L R := by
  refine filter_congr fun a ha => ?_
  simp only [Multiset.mem_add]
  constructor
  · exact fun hall b hb => hall b (.inl hb)
  · intro hall b hb
    exact hb.elim (hall b) (h a ha b)

/-- What dangles next to two sides together dangles next to one, then next to the other. -/
theorem dangling_add (L : Multiset α) (R R' : Multiset β) :
    dangling rel L (R + R') = dangling rel (dangling rel L R) R' := by
  unfold dangling
  rw [filter_filter]
  refine filter_congr fun a _ => ?_
  simp only [Multiset.mem_add]
  constructor
  · exact fun hall => ⟨fun b hb => hall b (.inr hb), fun b hb => hall b (.inl hb)⟩
  · exact fun hall b hb => hb.elim (hall.2 b) (hall.1 b)

theorem map_sum_multiset {γ : Type*} (f : α → γ) (L : ι → Multiset α) (s : Finset ι) :
    (∑ i ∈ s, L i).map f = ∑ i ∈ s, (L i).map f := map_sum (mapAddMonoidHom f) L s

variable [DecidableEq ι]

theorem dangling_sum_left (L : ι → Multiset α) (R : Multiset β) (s : Finset ι) :
    dangling rel (∑ i ∈ s, L i) R = ∑ i ∈ s, dangling rel (L i) R := by
  induction s using Finset.induction_on with
  | empty => rfl
  | insert i s hi ih => rw [Finset.sum_insert hi, Finset.sum_insert hi, dangling_add_left, ih]

theorem matched_sum_right (L : Multiset α) (R : ι → Multiset β) (s : Finset ι) :
    matched rel L (∑ i ∈ s, R i) = ∑ i ∈ s, matched rel L (R i) := by
  induction s using Finset.induction_on with
  | empty => exact matched_zero_right rel L
  | insert i s hi ih => rw [Finset.sum_insert hi, Finset.sum_insert hi, matched_add_right, ih]

theorem matched_sum {L : ι → Multiset α} {R : ι → Multiset β} (h : Separated rel L R) (s : Finset ι) :
    matched rel (∑ i ∈ s, L i) (∑ i ∈ s, R i) = ∑ i ∈ s, matched rel (L i) (R i) := by
  induction s using Finset.induction_on with
  | empty => exact matched_zero_right rel 0
  | insert i s hi ih =>
    rw [Finset.sum_insert hi, Finset.sum_insert hi, Finset.sum_insert hi, matched_add_left,
      matched_add_right, matched_add_right, matched_eq_zero rel (unrelated_sum rel h hi),
      matched_eq_zero rel (sum_unrelated rel h hi), ih, add_zero, zero_add]

theorem dangling_sum {L : ι → Multiset α} {R : ι → Multiset β} (h : Separated rel L R) (s : Finset ι) :
    dangling rel (∑ i ∈ s, L i) (∑ i ∈ s, R i) = ∑ i ∈ s, dangling rel (L i) (R i) := by
  induction s using Finset.induction_on with
  | empty => rfl
  | insert i s hi ih =>
    rw [Finset.sum_insert hi, Finset.sum_insert hi, Finset.sum_insert hi, dangling_add_left,
      dangling_add_right rel (unrelated_sum rel h hi), add_comm (R i),
      dangling_add_right rel (sum_unrelated rel h hi), ih]

universe u

/-! ## Products -/

section Product

variable {α : Type*} (cap : ℕ)

/-- One combination with each element of a factor, until there are as many as the cap. -/
def pushEach (combo : List α) : List α → List (List α) → List (List α)
  | [], next => next
  | v :: factor, next => if cap ≤ next.length then next else pushEach combo factor (next ++ [combo ++ [v]])

/-- Each combination with each element of a factor. -/
def pushAll (factor : List α) : List (List α) → List (List α) → List (List α)
  | [], next => next
  | combo :: combos, next =>
    let next := pushEach cap combo factor next
    if cap ≤ next.length then next else pushAll factor combos next

/-- The combinations extended by one factor after the other. -/
def cappedProduct (combos : List (List α)) : List (List α) → List (List α)
  | [] => combos
  | factor :: factors => cappedProduct (pushAll cap factor combos []) factors

variable {cap}

theorem pushEach_eq (combo factor : List α) {next : List (List α)} (h : next.length ≤ cap) :
    pushEach cap combo factor next = (next ++ factor.map fun v => combo ++ [v]).take cap := by
  induction factor generalizing next with
  | nil => rw [pushEach, List.map_nil, List.append_nil, List.take_of_length_le h]
  | cons v factor ih =>
    rw [pushEach]
    by_cases hfull : cap ≤ next.length
    · rw [if_pos hfull, List.take_append_of_le_length hfull, List.take_of_length_le h]
    · rw [if_neg hfull, ih (by simp; omega), List.append_assoc]
      rfl

theorem pushAll_eq (factor : List α) (combos : List (List α)) {next : List (List α)} (h : next.length ≤ cap) :
    pushAll cap factor combos next =
      (next ++ combos.flatMap fun combo => factor.map fun v => combo ++ [v]).take cap := by
  induction combos generalizing next with
  | nil => rw [pushAll, List.flatMap_nil, List.append_nil, List.take_of_length_le h]
  | cons combo combos ih =>
    rw [pushAll, pushEach_eq combo factor h, List.flatMap_cons, ← List.append_assoc, List.length_take]
    by_cases hfull : cap ≤ (next ++ factor.map fun v => combo ++ [v]).length
    · rw [if_pos (by omega), List.take_append_of_le_length hfull]
    · rw [if_neg (by omega), List.take_of_length_le (by omega), ih (by omega)]

theorem mem_pushAll {factor : List α} {combos : List (List α)} {c : List α} (h : c ∈ pushAll cap factor combos []) :
    ∃ combo ∈ combos, ∃ v ∈ factor, c = combo ++ [v] := by
  rw [pushAll_eq factor combos (Nat.zero_le cap)] at h
  obtain ⟨combo, hcombo, hc⟩ := List.mem_flatMap.mp (List.mem_of_mem_take h)
  obtain ⟨v, hv, rfl⟩ := List.mem_map.mp hc
  exact ⟨combo, hcombo, v, hv, rfl⟩

theorem length_pushes (factor : List α) (combos : List (List α)) :
    (combos.flatMap fun combo => factor.map fun v => combo ++ [v]).length = combos.length * factor.length := by
  induction combos with
  | nil => simp
  | cons combo combos ih =>
    rw [List.flatMap_cons, List.length_append, ih, List.length_map, List.length_cons, Nat.succ_mul, Nat.add_comm]

/-- With room for all of them every extension is built. -/
theorem pushAll_of_le {factor : List α} {combos : List (List α)} (h : combos.length * factor.length ≤ cap) :
    pushAll cap factor combos [] = combos.flatMap fun combo => factor.map fun v => combo ++ [v] := by
  rw [pushAll_eq factor combos (Nat.zero_le cap), List.nil_append, List.take_of_length_le]
  rw [length_pushes]
  exact h

/-- What comes after the combinations that meet the cap is not extended. -/
theorem mem_pushAll_of_full {factor : List α} {combos more : List (List α)} (h : cap ≤ combos.length * factor.length)
    {c : List α} (hc : c ∈ pushAll cap factor (combos ++ more) []) :
    ∃ combo ∈ combos, ∃ v ∈ factor, c = combo ++ [v] := by
  rw [pushAll_eq factor _ (Nat.zero_le cap), List.nil_append, List.flatMap_append,
    List.take_append_of_le_length (by rw [length_pushes]; exact h)] at hc
  obtain ⟨combo, hcombo, hc⟩ := List.mem_flatMap.mp (List.mem_of_mem_take hc)
  obtain ⟨v, hv, rfl⟩ := List.mem_map.mp hc
  exact ⟨combo, hcombo, v, hv, rfl⟩

/-- What is built is a combination of the factors. -/
theorem mem_cappedProduct {combos factors : List (List α)} {c : List α} (h : c ∈ cappedProduct cap combos factors) :
    ∃ combo ∈ combos, ∃ vs, List.Forall₂ (· ∈ ·) vs factors ∧ c = combo ++ vs := by
  induction factors generalizing combos with
  | nil => exact ⟨c, h, [], List.Forall₂.nil, by rw [List.append_nil]⟩
  | cons factor factors ih =>
    obtain ⟨combo', hcombo', vs, hvs, rfl⟩ := ih h
    obtain ⟨combo, hcombo, v, hv, rfl⟩ := mem_pushAll hcombo'
    exact ⟨combo, hcombo, v :: vs, hvs.cons hv, by rw [List.append_assoc]; rfl⟩

/-- Up to the cap every combination is built. -/
theorem cappedProduct_complete {combos factors : List (List α)} (hne : ∀ factor ∈ factors, factor ≠ [])
    (hcap : combos.length * (factors.map List.length).prod ≤ cap) {combo vs : List α} (hcombo : combo ∈ combos)
    (hvs : List.Forall₂ (· ∈ ·) vs factors) : combo ++ vs ∈ cappedProduct cap combos factors := by
  induction hvs generalizing combos combo with
  | nil =>
    rw [List.append_nil]
    exact hcombo
  | @cons v factor vs factors hv hvs ih =>
    obtain ⟨-, hne⟩ := List.forall_mem_cons.mp hne
    rw [List.map_cons, List.prod_cons, ← Nat.mul_assoc] at hcap
    -- the factors still to come have an element each
    have hpos : 1 ≤ (factors.map List.length).prod := by
      refine Nat.one_le_iff_ne_zero.mpr (List.prod_ne_zero fun hzero => ?_)
      obtain ⟨factor, hfactor, hlen⟩ := List.mem_map.mp hzero
      exact hne factor hfactor (List.length_eq_zero_iff.mp hlen)
    have hstep : combos.length * factor.length ≤ cap := by
      calc combos.length * factor.length
          ≤ combos.length * factor.length * (factors.map List.length).prod := Nat.le_mul_of_pos_right _ hpos
        _ ≤ cap := hcap
    rw [List.append_cons]
    refine ih hne ?_ ?_
    · rw [pushAll_of_le hstep, length_pushes]
      exact hcap
    · rw [pushAll_of_le hstep]
      exact List.mem_flatMap.mpr ⟨combo, hcombo, List.mem_map.mpr ⟨v, hv, rfl⟩⟩

/-- There is a combination when there is room for one and no factor is empty. -/
theorem cappedProduct_ne_nil (hcap : 0 < cap) {combos factors : List (List α)} (hcombos : combos ≠ [])
    (hne : ∀ factor ∈ factors, factor ≠ []) : cappedProduct cap combos factors ≠ [] := by
  induction factors generalizing combos with
  | nil => exact hcombos
  | cons factor factors ih =>
    obtain ⟨hfactor, hfactors⟩ := List.forall_mem_cons.mp hne
    refine ih ?_ hfactors
    rw [pushAll_eq factor combos (Nat.zero_le cap), List.nil_append]
    refine List.ne_nil_of_length_pos ?_
    rw [List.length_take, length_pushes]
    have hpos := Nat.mul_pos (List.length_pos_of_ne_nil hcombos) (List.length_pos_of_ne_nil hfactor)
    omega

end Product

/-! ## Distinct keys -/

section Distinct

variable {ε : Type*} {β κ : Type u} [DecidableEq κ] (key : β → Except ε κ)

/-- The elements whose key is not one of `seen` or of an earlier element, with their keys. -/
def distinct (seen : List κ) : List β → Except ε (List (β × κ))
  | [] => .ok []
  | b :: bs => do
    let k ← key b
    if k ∈ seen then distinct seen bs
    else return (b, k) :: (← distinct (k :: seen) bs)

variable {key}

/-- What `distinct` keeps of a list all of whose elements have a key. -/
structure Distinct (key : β → Except ε κ) (seen : List κ) (bs : List β) (out : List (β × κ)) : Prop where
  nodup : (out.map Prod.snd).Nodup
  unseen : ∀ p ∈ out, p.2 ∉ seen
  sublist : (out.map Prod.fst).Sublist bs
  sound : ∀ p ∈ out, key p.1 = .ok p.2
  complete : ∀ b ∈ bs, ∀ k, key b = .ok k → k ∈ seen ∨ ∃ p ∈ out, p.2 = k

theorem distinct_spec {bs : List β} (h : ∀ b ∈ bs, ∃ k, key b = .ok k) (seen : List κ) :
    ∃ out, distinct key seen bs = .ok out ∧ Distinct key seen bs out := by
  induction bs generalizing seen with
  | nil =>
    exact ⟨[], rfl, List.nodup_nil, nofun, .refl _, nofun, nofun⟩
  | cons b bs ih =>
    obtain ⟨⟨k, hk⟩, hbs⟩ := List.forall_mem_cons.mp h
    rw [distinct, hk]
    by_cases hseen : k ∈ seen
    · obtain ⟨out, hout, hspec⟩ := ih hbs seen
      refine ⟨out, ?_, hspec.nodup, hspec.unseen, hspec.sublist.cons b, hspec.sound, ?_⟩
      · exact (if_pos hseen).trans hout
      · refine List.forall_mem_cons.mpr ⟨fun k' hk' => ?_, hspec.complete⟩
        rw [hk, Except.ok.injEq] at hk'
        exact Or.inl (hk' ▸ hseen)
    · obtain ⟨out, hout, hspec⟩ := ih hbs (k :: seen)
      refine ⟨(b, k) :: out, ?_, ?_, ?_, hspec.sublist.cons_cons b, ?_, ?_⟩
      · refine (if_neg hseen).trans ?_
        rw [hout]
        rfl
      · refine List.nodup_cons.mpr ⟨fun hmem => ?_, hspec.nodup⟩
        obtain ⟨p, hp, hpk⟩ := List.mem_map.mp hmem
        exact hspec.unseen p hp (hpk ▸ List.mem_cons_self)
      · exact List.forall_mem_cons.mpr ⟨hseen, fun p hp hin => hspec.unseen p hp (List.mem_cons_of_mem k hin)⟩
      · exact List.forall_mem_cons.mpr ⟨hk, hspec.sound⟩
      · refine List.forall_mem_cons.mpr ⟨fun k' hk' => ?_, fun b' hb' k' hk' => ?_⟩
        · rw [hk, Except.ok.injEq] at hk'
          exact Or.inr ⟨(b, k), List.mem_cons_self, hk'⟩
        · rcases hspec.complete b' hb' k' hk' with hin | ⟨p, hp, hpk⟩
          · rcases List.mem_cons.mp hin with rfl | hin
            · exact Or.inr ⟨(b, k'), List.mem_cons_self, rfl⟩
            · exact Or.inl hin
          · exact Or.inr ⟨p, List.mem_cons_of_mem _ hp, hpk⟩

/-- An element without a key is an error. -/
theorem distinct_error {bs : List β} {b : β} (hb : b ∈ bs) {e : ε} (he : key b = .error e) (seen : List κ) :
    ∃ e', distinct key seen bs = .error e' := by
  induction bs generalizing seen with
  | nil => cases hb
  | cons b' bs ih =>
    rw [distinct]
    cases hk : key b' with
    | error e' => exact ⟨e', rfl⟩
    | ok k =>
      have hin : b ∈ bs := by
        rcases List.mem_cons.mp hb with rfl | hin
        · rw [he] at hk
          cases hk
        · exact hin
      by_cases hseen : k ∈ seen
      · obtain ⟨e', he'⟩ := ih hin seen
        exact ⟨e', (if_pos hseen).trans he'⟩
      · obtain ⟨e', he'⟩ := ih hin (k :: seen)
        refine ⟨e', (if_neg hseen).trans ?_⟩
        rw [he']
        rfl

/-- A list whose elements are all gone over has a key for each. -/
theorem exists_key_of_distinct {bs : List β} {seen : List κ} {out : List (β × κ)}
    (h : distinct key seen bs = .ok out) : ∀ b ∈ bs, ∃ k, key b = .ok k := by
  intro b hb
  cases hk : key b with
  | ok k => exact ⟨k, rfl⟩
  | error e =>
    obtain ⟨e', he'⟩ := distinct_error hb hk seen
    rw [h] at he'
    cases he'

omit [DecidableEq κ] in
theorem Distinct.mem {seen : List κ} {bs : List β} {out : List (β × κ)} (h : Distinct key seen bs out) {p : β × κ}
    (hp : p ∈ out) : p.1 ∈ bs := h.sublist.subset (List.mem_map.mpr ⟨p, hp, rfl⟩)

omit [DecidableEq κ] in
/-- The keys kept are the keys of the list. -/
theorem Distinct.mem_keys {bs : List β} {out : List (β × κ)} (h : Distinct key [] bs out) (k : κ) :
    k ∈ out.map Prod.snd ↔ ∃ b ∈ bs, key b = .ok k := by
  constructor
  · intro hk
    obtain ⟨p, hp, rfl⟩ := List.mem_map.mp hk
    exact ⟨p.1, h.mem hp, h.sound p hp⟩
  · rintro ⟨b, hb, hk⟩
    rcases h.complete b hb k hk with hin | ⟨p, hp, hpk⟩
    · cases hin
    · exact List.mem_map.mpr ⟨p, hp, hpk⟩

variable (key)

/-- The number of different keys of a list. -/
def keyCount (bs : List β) : ℕ := (bs.filterMap fun b => (key b).toOption).dedup.length

variable {key}

theorem Distinct.length_eq {bs : List β} {out : List (β × κ)} (h : Distinct key [] bs out) :
    out.length = keyCount key bs := by
  have hperm : (out.map Prod.snd).Perm (bs.filterMap fun b => (key b).toOption).dedup := by
    rw [List.perm_ext_iff_of_nodup h.nodup (List.nodup_dedup _)]
    intro k
    rw [h.mem_keys, List.mem_dedup, List.mem_filterMap]
    refine exists_congr fun b => and_congr_right fun _ => ?_
    cases key b with
    | error e => simp [Except.toOption]
    | ok k' => simp [Except.toOption]
  rw [keyCount, ← hperm.length_eq, List.length_map]

end Distinct

end Secantus.Library
