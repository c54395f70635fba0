/-
  A hash table's buckets beside the list they hold: the buckets of a list are its items by hash, in the list's
  order.

  A search that finds only items of one hash finds in that hash's bucket what it finds in the list, and adding
  or changing an item in its bucket adds or changes it in the list.
-/
import Mathlib.Data.List.Basic
import Mathlib.Logic.Function.Basic

namespace Secantus.Library

/-! ## Machines that answer -/

section Answers

variable {σ τ ι ο : Type*}

/-- What a machine answers to one input after the other. -/
def answers (step : σ → ι → ο × σ) : σ → List ι → List ο
  | _, [] => []
  | s, i :: is => (step s i).1 :: answers step (step s i).2 is

/-- Two machines that answer alike and stay related, on inputs of a kind, answer alike to every sequence of
    them. -/
theorem answers_eq_of_related {step : σ → ι → ο × σ} {step' : τ → ι → ο × τ} {R : σ → τ → Prop}
    {C : ι → Prop} (h : ∀ s t i, R s t → C i → (step s i).1 = (step' t i).1 ∧ R (step s i).2 (step' t i).2)
    (is : List ι) {s : σ} {t : τ} (hst : R s t) (his : ∀ i ∈ is, C i) :
    answers step s is = answers step' t is := by
  induction is generalizing s t with
  | nil => rfl
  | cons i is ih =>
    obtain ⟨ho, hnext⟩ := h s t i hst (his i List.mem_cons_self)
    rw [answers, answers, ho, ih hnext fun j hj => his j (List.mem_cons_of_mem i hj)]

end Answers

/-! ## Buckets -/

variable {α κ : Type*} [DecidableEq κ]

/-- The items of a list, by their hash. -/
def bucketsOf (hash : α → κ) (items : List α) : κ → List α :=
  fun h => items.filter fun a => decide (hash a = h)

/-- The first item that `p` takes, changed by `f`. -/
def modifyFirst (p : α → Bool) (f : α → α) : List α → List α
  | [] => []
  | a :: items => if p a then f a :: items else a :: modifyFirst p f items

variable {hash : α → κ} {items : List α} {p : α → Bool} {h : κ}

theorem bucketsOf_cons (a : α) :
    bucketsOf hash (a :: items) h = if hash a = h then a :: bucketsOf hash items h else bucketsOf hash items h := by
  by_cases ha : hash a = h
  · simp [bucketsOf, ha]
  · simp [bucketsOf, ha]

/-- What is found in the list is found in its bucket. -/
theorem find?_bucketsOf (hp : ∀ a ∈ items, p a = true → hash a = h) :
    (bucketsOf hash items h).find? p = items.find? p := by
  induction items with
  | nil => rfl
  | cons a items ih =>
    have hrest := ih fun b hb => hp b (List.mem_cons_of_mem a hb)
    rw [bucketsOf_cons, List.find?_cons]
    by_cases hpa : p a = true
    · rw [if_pos (hp a List.mem_cons_self hpa), List.find?_cons]
      simp [hpa]
    · by_cases ha : hash a = h
      · rw [if_pos ha, List.find?_cons, hrest]
      · rw [if_neg ha, hrest]
        simp [hpa]

theorem any_bucketsOf (hp : ∀ a ∈ items, p a = true → hash a = h) :
    (bucketsOf hash items h).any p = items.any p := by
  rw [← List.isSome_find?, ← List.isSome_find?, find?_bucketsOf hp]

/-- An item at the end of its bucket is at the end of the list. -/
theorem update_bucketsOf_append (a : α) :
    Function.update (bucketsOf hash items) (hash a) (bucketsOf hash items (hash a) ++ [a]) =
      bucketsOf hash (items ++ [a]) := by
  funext h
  by_cases ha : h = hash a
  · subst ha
    rw [Function.update_self]
    simp [bucketsOf]
  · rw [Function.update_of_ne ha]
    simp [bucketsOf, Ne.symm ha]

theorem bucketsOf_modifyFirst_of_ne {f : α → α} (hf : ∀ a, hash (f a) = hash a)
    (hp : ∀ a ∈ items, p a = true → hash a = h) {h' : κ} (hne : h' ≠ h) :
    bucketsOf hash (modifyFirst p f items) h' = bucketsOf hash items h' := by
  induction items with
  | nil => rfl
  | cons a items ih =>
    rw [modifyFirst]
    split
    · rename_i hpa
      have ha : ¬ hash a = h' := fun ha => hne (ha ▸ hp a List.mem_cons_self hpa)
      rw [bucketsOf_cons, bucketsOf_cons, hf, if_neg ha, if_neg ha]
    · rw [bucketsOf_cons, bucketsOf_cons, ih fun b hb => hp b (List.mem_cons_of_mem a hb)]

theorem modifyFirst_bucketsOf {f : α → α} (hf : ∀ a, hash (f a) = hash a)
    (hp : ∀ a ∈ items, p a = true → hash a = h) :
    modifyFirst p f (bucketsOf hash items h) = bucketsOf hash (modifyFirst p f items) h := by
  induction items with
  | nil => rfl
  | cons a items ih =>
    have hrest := ih fun b hb => hp b (List.mem_cons_of_mem a hb)
    rw [modifyFirst, bucketsOf_cons]
    by_cases hpa : p a = true
    · have ha := hp a List.mem_cons_self hpa
      rw [if_pos hpa, if_pos ha, bucketsOf_cons, hf, if_pos ha, modifyFirst, if_pos hpa]
    · rw [if_neg hpa, bucketsOf_cons]
      by_cases ha : hash a = h
      · rw [if_pos ha, if_pos ha, modifyFirst, if_neg hpa, hrest]
      · rw [if_neg ha, if_neg ha, hrest]

/-- An item changed in its bucket is changed in the list. -/
theorem update_bucketsOf_modifyFirst {f : α → α} (hf : ∀ a, hash (f a) = hash a)
    (hp : ∀ a ∈ items, p a = true → hash a = h) :
    Function.update (bucketsOf hash items) h (modifyFirst p f (bucketsOf hash items h)) =
      bucketsOf hash (modifyFirst p f items) := by
  funext h'
  by_cases hh : h' = h
  · subst hh
    rw [Function.update_self, modifyFirst_bucketsOf hf hp]
  · rw [Function.update_of_ne hh, bucketsOf_modifyFirst_of_ne hf hp hh]

/-- A change keeps what is true of every item, when it keeps it of each. -/
theorem forall_mem_modifyFirst {f : α → α} {C : α → Prop} (hf : ∀ a, C a → C (f a))
    (hC : ∀ a ∈ items, C a) : ∀ a ∈ modifyFirst p f items, C a := by
  induction items with
  | nil => exact hC
  | cons b items ih =>
    rw [List.forall_mem_cons] at hC
    rw [modifyFirst]
    split
    · exact List.forall_mem_cons.mpr ⟨hf b hC.1, hC.2⟩
    · exact List.forall_mem_cons.mpr ⟨hC.1, ih hC.2⟩

/-! ## Groups in the order they are found -/

section Groups

variable {β ε : Type*} {key : β → Except ε κ} {gs gs' : List (κ × List β)} {items rest : List β}

/-- An item with its key: into the group of that key, or into a new one at the end. -/
def intoGroup (k : κ) (b : β) : List (κ × List β) → List (κ × List β)
  | [] => [(k, [b])]
  | (k', bs) :: gs => if k' = k then (k', bs ++ [b]) :: gs else (k', bs) :: intoGroup k b gs

/-- Items one after the other, each into the group of its key. -/
def groupsFrom (key : β → Except ε κ) : List (κ × List β) → List β → Except ε (List (κ × List β))
  | gs, [] => .ok gs
  | gs, b :: items =>
    match key b with
    | .error e => .error e
    | .ok k => groupsFrom key (intoGroup k b gs) items

/-- Groups hold the items: each key once, with the items of that key, and every item in one. -/
structure Groups (key : β → Except ε κ) (items : List β) (gs : List (κ × List β)) : Prop where
  nodup : (gs.map Prod.fst).Nodup
  mem_iff : ∀ g ∈ gs, ∀ b, b ∈ g.2 ↔ b ∈ items ∧ key b = .ok g.1
  covers : ∀ b ∈ items, ∃ g ∈ gs, b ∈ g.2

omit [DecidableEq κ] in
theorem groups_nil (key : β → Except ε κ) : Groups key [] [] where
  nodup := List.nodup_nil
  mem_iff := fun _ hg => nomatch hg
  covers := fun _ hb => nomatch hb

theorem keys_intoGroup (k : κ) (b : β) (gs : List (κ × List β)) :
    (intoGroup k b gs).map Prod.fst = if k ∈ gs.map Prod.fst then gs.map Prod.fst else gs.map Prod.fst ++ [k] := by
  induction gs with
  | nil => rfl
  | cons g gs ih =>
    obtain ⟨k', bs⟩ := g
    rw [intoGroup]
    by_cases hk : k' = k
    · simp [hk]
    · rw [if_neg hk, List.map_cons, List.map_cons, ih]
      by_cases hmem : k ∈ gs.map Prod.fst
      · rw [if_pos hmem, if_pos (List.mem_cons_of_mem _ hmem)]
      · rw [if_neg hmem, if_neg (by simp [Ne.symm hk, hmem])]
        rfl

/-- What a group holds after an item went in: that item too, if it is the item's group. -/
theorem mem_intoGroup {k : κ} {b : β} (hnodup : (gs.map Prod.fst).Nodup) {g : κ × List β} :
    g ∈ intoGroup k b gs →
      (g.1 ≠ k ∧ g ∈ gs) ∨ (g.1 = k ∧ ((∃ bs, (k, bs) ∈ gs ∧ g.2 = bs ++ [b]) ∨ (k ∉ gs.map Prod.fst ∧ g.2 = [b]))) := by
  induction gs with
  | nil =>
    intro hg
    obtain rfl := List.mem_singleton.mp hg
    exact Or.inr ⟨rfl, Or.inr ⟨List.not_mem_nil, rfl⟩⟩
  | cons g' gs ih =>
    obtain ⟨k', bs⟩ := g'
    rw [List.map_cons, List.nodup_cons] at hnodup
    intro hg
    rw [intoGroup] at hg
    by_cases hk : k' = k
    · subst hk
      rw [if_pos rfl] at hg
      rcases List.mem_cons.mp hg with rfl | hg
      · exact Or.inr ⟨rfl, Or.inl ⟨bs, List.mem_cons_self, rfl⟩⟩
      · have hmem : g.1 ∈ gs.map Prod.fst := List.mem_map_of_mem hg
        exact Or.inl ⟨fun h => hnodup.1 (h ▸ hmem), List.mem_cons_of_mem _ hg⟩
    · rw [if_neg hk] at hg
      rcases List.mem_cons.mp hg with rfl | hg
      · exact Or.inl ⟨hk, List.mem_cons_self⟩
      · rcases ih hnodup.2 hg with ⟨hne, hmem⟩ | ⟨heq, ⟨bs', hbs, h⟩ | ⟨hnew, h⟩⟩
        · exact Or.inl ⟨hne, List.mem_cons_of_mem _ hmem⟩
        · exact Or.inr ⟨heq, Or.inl ⟨bs', List.mem_cons_of_mem _ hbs, h⟩⟩
        · exact Or.inr ⟨heq, Or.inr ⟨by simp [Ne.symm hk, hnew], h⟩⟩

/-- Groups keep what they hold. -/
theorem exists_mem_intoGroup {k : κ} {b c : β} (h : c = b ∨ ∃ g ∈ gs, c ∈ g.2) :
    ∃ g ∈ intoGroup k b gs, c ∈ g.2 := by
  induction gs with
  | nil =>
    rcases h with rfl | ⟨_, hg, -⟩
    · exact ⟨(k, [c]), List.mem_cons_self, List.mem_cons_self⟩
    · cases hg
  | cons g' gs ih =>
    obtain ⟨k', bs⟩ := g'
    rw [intoGroup]
    by_cases hk : k' = k
    · rw [if_pos hk]
      rcases h with rfl | ⟨g, hg, hc⟩
      · exact ⟨_, List.mem_cons_self, by simp⟩
      · rcases List.mem_cons.mp hg with rfl | hg
        · exact ⟨_, List.mem_cons_self, List.mem_append_left _ hc⟩
        · exact ⟨g, List.mem_cons_of_mem _ hg, hc⟩
    · rw [if_neg hk]
      rcases h with rfl | ⟨g, hg, hc⟩
      · obtain ⟨g, hg, hc⟩ := ih (Or.inl rfl)
        exact ⟨g, List.mem_cons_of_mem _ hg, hc⟩
      · rcases List.mem_cons.mp hg with rfl | hg
        · exact ⟨_, List.mem_cons_self, hc⟩
        · obtain ⟨g, hg, hc⟩ := ih (Or.inr ⟨g, hg, hc⟩)
          exact ⟨g, List.mem_cons_of_mem _ hg, hc⟩

theorem Groups.intoGroup {k : κ} {b : β} (h : Groups key items gs) (hk : key b = .ok k) :
    Groups key (items ++ [b]) (intoGroup k b gs) where
  nodup := by
    rw [keys_intoGroup]
    split
    · exact h.nodup
    · rename_i hnew
      exact List.nodup_append.mpr ⟨h.nodup, List.pairwise_singleton _ k, by
        rintro x hx y hy rfl
        exact hnew (List.mem_singleton.mp hy ▸ hx)⟩
  mem_iff := by
    intro g hg c
    rw [List.mem_append, List.mem_singleton]
    rcases mem_intoGroup h.nodup hg with ⟨hne, hmem⟩ | ⟨heq, ⟨bs, hbs, hg2⟩ | ⟨hnew, hg2⟩⟩
    · rw [h.mem_iff g hmem c]
      constructor
      · exact fun ⟨hc, hkey⟩ => ⟨Or.inl hc, hkey⟩
      · rintro ⟨hc | rfl, hkey⟩
        · exact ⟨hc, hkey⟩
        · exact absurd (Except.ok.inj (hkey.symm.trans hk)) hne
    · rw [hg2, heq, List.mem_append, List.mem_singleton, h.mem_iff (k, bs) hbs c]
      constructor
      · rintro (⟨hc, hkey⟩ | rfl)
        · exact ⟨Or.inl hc, hkey⟩
        · exact ⟨Or.inr rfl, hk⟩
      · rintro ⟨hc | rfl, hkey⟩
        · exact Or.inl ⟨hc, hkey⟩
        · exact Or.inr rfl
    · rw [hg2, heq, List.mem_singleton]
      constructor
      · rintro rfl
        exact ⟨Or.inr rfl, hk⟩
      · rintro ⟨hc | rfl, hkey⟩
        · obtain ⟨g', hg', hcg'⟩ := h.covers c hc
          have hkey' := ((h.mem_iff g' hg' c).mp hcg').2
          have heq' := Except.ok.inj (hkey'.symm.trans hkey)
          exact absurd (heq' ▸ List.mem_map_of_mem hg') hnew
        · rfl
  covers := by
    intro c hc
    refine exists_mem_intoGroup ?_
    rcases List.mem_append.mp hc with hc | hc
    · exact Or.inr (h.covers c hc)
    · exact Or.inl (List.mem_singleton.mp hc)

theorem Groups.groupsFrom (h : Groups key items gs) (hgs : groupsFrom key gs rest = .ok gs') :
    Groups key (items ++ rest) gs' := by
  induction rest generalizing items gs with
  | nil =>
    obtain rfl := Except.ok.inj hgs
    rwa [List.append_nil]
  | cons b rest ih =>
    rw [Library.groupsFrom] at hgs
    cases hk : key b with
    | error e =>
      rw [hk] at hgs
      cases hgs
    | ok k =>
      rw [hk] at hgs
      have hrest := ih (h.intoGroup hk) hgs
      rwa [List.append_assoc] at hrest

/-- Where every item has a key, the items are grouped. -/
theorem groupsFrom_ok (h : ∀ b ∈ items, ∃ k, key b = .ok k) (gs : List (κ × List β)) :
    ∃ gs', groupsFrom key gs items = .ok gs' := by
  induction items generalizing gs with
  | nil => exact ⟨gs, rfl⟩
  | cons b items ih =>
    obtain ⟨k, hk⟩ := h b List.mem_cons_self
    rw [groupsFrom, hk]
    exact ih (fun c hc => h c (List.mem_cons_of_mem b hc)) _

/-- Where an item has no key, they are not. -/
theorem key_of_groupsFrom (h : groupsFrom key gs items = .ok gs') : ∀ b ∈ items, ∃ k, key b = .ok k := by
  induction items generalizing gs with
  | nil => exact fun b hb => nomatch hb
  | cons c items ih =>
    rw [groupsFrom] at h
    cases hk : key c with
    | error e =>
      rw [hk] at h
      cases h
    | ok k =>
      rw [hk] at h
      exact List.forall_mem_cons.mpr ⟨⟨k, hk⟩, ih h⟩

omit [DecidableEq κ] in
/-- Two items are in one group exactly when they have one key. -/
theorem Groups.together_iff (h : Groups key items gs) {b c : β} (hb : b ∈ items) (hc : c ∈ items) {k l : κ}
    (hk : key b = .ok k) (hl : key c = .ok l) : (∃ g ∈ gs, b ∈ g.2 ∧ c ∈ g.2) ↔ k = l := by
  constructor
  · rintro ⟨g, hg, hbg, hcg⟩
    have hbk := ((h.mem_iff g hg b).mp hbg).2
    have hcl := ((h.mem_iff g hg c).mp hcg).2
    exact (Except.ok.inj (hk.symm.trans hbk)).trans (Except.ok.inj (hcl.symm.trans hl))
  · rintro rfl
    obtain ⟨g, hg, hbg⟩ := h.covers b hb
    have hbk := ((h.mem_iff g hg b).mp hbg).2
    have heq := Except.ok.inj (hk.symm.trans hbk)
    exact ⟨g, hg, hbg, (h.mem_iff g hg c).mpr ⟨hc, by rw [hl, heq]⟩⟩

end Groups

end Secantus.Library
