/-
  `doc_changed` (`diff.rs`): whether an update changed the stored bytes of a document, told from the
  values without encoding them.

  Both `same_encoding` and equality of values go through a value alike, and part only at the scope of
  a code: `same_encoding` compares scopes as maps (`eqvDoc`). So each is equality of the two values
  with their scopes emptied (`bare`) and a comparison of the scopes taken out (`scopes`), one by one
  (`Parts.iff`), and `doc_changed` tells the encodings apart exactly when the comparisons of the
  scopes agree (`docChanged_iff_write`).
-/
import Secantus.Bson.Equality
import Secantus.Wire.RoundTrip

namespace Secantus.Diff

open Secantus Bson Wire

def docChanged (new old : Document) : Bool := !sameFields new old

mutual

/-- A value with the scopes of its codes emptied. -/
def bare : Bson → Bson
  | .document x => .document (bareFields x)
  | .array x => .array (bareElements x)
  | .javaScriptCodeWithScope c _ => .javaScriptCodeWithScope c []
  | v => v

def bareFields : Document → Document
  | [] => []
  | (k, v) :: x => (k, bare v) :: bareFields x

def bareElements : List Bson → List Bson
  | [] => []
  | v :: x => bare v :: bareElements x

end

mutual

/-- The scopes of the codes in a value, in order; not the scopes inside a scope. -/
def scopes : Bson → List Document
  | .document x => scopesFields x
  | .array x => scopesElements x
  | .javaScriptCodeWithScope _ s => [s]
  | _ => []

def scopesFields : Document → List Document
  | [] => []
  | (_, v) :: x => scopes v ++ scopesFields x

def scopesElements : List Bson → List Document
  | [] => []
  | v :: x => scopes v ++ scopesElements x

end

mutual

theorem length_scopes_bare (v : Bson) : (scopes (bare v)).length = (scopes v).length := by
  cases v with
  | document x =>
    rw [bare, scopes, scopes]
    exact length_scopesFields_bare x
  | array x =>
    rw [bare, scopes, scopes]
    exact length_scopesElements_bare x
  | _ => rfl

theorem length_scopesFields_bare (x : Document) :
    (scopesFields (bareFields x)).length = (scopesFields x).length := by
  match x with
  | [] => rfl
  | (k, v) :: x =>
    rw [bareFields, scopesFields, scopesFields, List.length_append, List.length_append,
      length_scopes_bare v, length_scopesFields_bare x]

theorem length_scopesElements_bare (x : List Bson) :
    (scopesElements (bareElements x)).length = (scopesElements x).length := by
  match x with
  | [] => rfl
  | v :: x =>
    rw [bareElements, scopesElements, scopesElements, List.length_append, List.length_append,
      length_scopes_bare v, length_scopesElements_bare x]

end

/-- Values that are one another but for their scopes have as many of them. -/
theorem length_scopes_of_bare {v w : Bson} (h : bare v = bare w) :
    (scopes v).length = (scopes w).length := by
  rw [← length_scopes_bare v, h, length_scopes_bare w]

theorem forall₂_append_iff {α β : Type*} {R : α → β → Prop} {a c : List α} {b d : List β}
    (hlen : a.length = b.length) :
    List.Forall₂ R (a ++ c) (b ++ d) ↔ List.Forall₂ R a b ∧ List.Forall₂ R c d := by
  constructor
  · intro h
    have htake := List.forall₂_take a.length h
    have hdrop := List.forall₂_drop a.length h
    rw [List.take_left, hlen, List.take_left] at htake
    rw [List.drop_left, hlen, List.drop_left] at hdrop
    exact ⟨htake, hdrop⟩
  · rintro ⟨hab, hcd⟩
    exact List.rel_append hab hcd

/-! ## Comparisons that differ at a scope only -/

/-- One level of a comparison `E` that compares scopes by `R`. -/
def Part (R : Document → Document → Prop) (E : Bson → Bson → Prop) : Bson → Bson → Prop
  | .document x, .document y => List.Forall₂ (fun f g => f.1 = g.1 ∧ E f.2 g.2) x y
  | .array x, .array y => List.Forall₂ E x y
  | .javaScriptCodeWithScope c s, .javaScriptCodeWithScope c' s' => c = c' ∧ R s s'
  | v, w => v = w

/-- A comparison that goes through a value part by part, with `R` at a scope. -/
def Parts (R : Document → Document → Prop) (E : Bson → Bson → Prop) : Prop :=
  ∀ v w, E v w ↔ Part R E v w

section Parts

variable {R : Document → Document → Prop} {E : Bson → Bson → Prop}

/-- The fields, once the values inside are settled. -/
theorem Parts.fields {x : Document}
    (ih : ∀ f ∈ x, ∀ w, E f.2 w ↔ bare f.2 = bare w ∧ List.Forall₂ R (scopes f.2) (scopes w))
    (y : Document) : List.Forall₂ (fun f g => f.1 = g.1 ∧ E f.2 g.2) x y ↔
      bareFields x = bareFields y ∧ List.Forall₂ R (scopesFields x) (scopesFields y) := by
  induction x generalizing y with
  | nil => cases y <;> simp [bareFields, scopesFields]
  | cons f x ihx =>
    obtain ⟨k, v⟩ := f
    cases y with
    | nil => simp [bareFields]
    | cons g y =>
      obtain ⟨k', w⟩ := g
      have hv := ih (k, v) List.mem_cons_self w
      have hx := ihx (fun f hf => ih f (List.mem_cons_of_mem _ hf)) y
      rw [List.forall₂_cons, hx, bareFields, bareFields, scopesFields, scopesFields, List.cons.injEq,
        Prod.mk.injEq]
      constructor
      · rintro ⟨⟨hk, he⟩, hb, hs⟩
        have hvw := hv.mp he
        exact ⟨⟨⟨hk, hvw.1⟩, hb⟩, (forall₂_append_iff (length_scopes_of_bare hvw.1)).mpr ⟨hvw.2, hs⟩⟩
      · rintro ⟨⟨⟨hk, hvw⟩, hb⟩, hs⟩
        rw [forall₂_append_iff (length_scopes_of_bare hvw)] at hs
        exact ⟨⟨hk, hv.mpr ⟨hvw, hs.1⟩⟩, hb, hs.2⟩

/-- The elements, once the values inside are settled. -/
theorem Parts.elements {x : List Bson}
    (ih : ∀ v ∈ x, ∀ w, E v w ↔ bare v = bare w ∧ List.Forall₂ R (scopes v) (scopes w))
    (y : List Bson) : List.Forall₂ E x y ↔
      bareElements x = bareElements y ∧ List.Forall₂ R (scopesElements x) (scopesElements y) := by
  induction x generalizing y with
  | nil => cases y <;> simp [bareElements, scopesElements]
  | cons v x ihx =>
    cases y with
    | nil => simp [bareElements]
    | cons w y =>
      have hv := ih v List.mem_cons_self w
      have hx := ihx (fun v hm => ih v (List.mem_cons_of_mem _ hm)) y
      rw [List.forall₂_cons, hx, bareElements, bareElements, scopesElements, scopesElements,
        List.cons.injEq]
      constructor
      · rintro ⟨he, hb, hs⟩
        have hvw := hv.mp he
        exact ⟨⟨hvw.1, hb⟩, (forall₂_append_iff (length_scopes_of_bare hvw.1)).mpr ⟨hvw.2, hs⟩⟩
      · rintro ⟨⟨hvw, hb⟩, hs⟩
        rw [forall₂_append_iff (length_scopes_of_bare hvw)] at hs
        exact ⟨hv.mpr ⟨hvw, hs.1⟩, hb, hs.2⟩

/-- Such a comparison is equality but for the scopes, and `R` of the scopes. -/
theorem Parts.iff (h : Parts R E) (v w : Bson) :
    E v w ↔ bare v = bare w ∧ List.Forall₂ R (scopes v) (scopes w) := by
  induction v using Bson.induction generalizing w with
  | document x ih =>
    rw [h]
    cases w with
    | document y =>
      rw [bare, bare, scopes, scopes, Bson.document.injEq]
      exact Parts.fields ih y
    | _ => simp [Part, bare]
  | array x ih =>
    rw [h]
    cases w with
    | array y =>
      rw [bare, bare, scopes, scopes, Bson.array.injEq]
      exact Parts.elements ih y
    | _ => simp [Part, bare]
  | scope c s =>
    rw [h]
    cases w with
    | javaScriptCodeWithScope c' s' => simp [Part, bare, scopes]
    | _ => simp [Part, bare]
  | leaf v hleaf =>
    rw [h]
    cases v with
    | document x => cases hleaf
    | array x => cases hleaf
    | javaScriptCodeWithScope c s => cases hleaf
    | _ => cases w <;> simp [Part, bare, scopes]

end Parts

/-! ## The two comparisons -/

theorem forall₂_fields_eq (x y : Document) :
    List.Forall₂ (fun f g => f.1 = g.1 ∧ f.2 = g.2) x y ↔ x = y := by
  have hR : (fun f g : String × Bson => f.1 = g.1 ∧ f.2 = g.2) = Eq := by
    funext f g
    exact propext Prod.ext_iff.symm
  rw [hR, List.forall₂_eq_eq_eq]

theorem parts_eq : Parts Eq Eq := by
  intro v w
  cases v <;> cases w <;> simp [Part, forall₂_fields_eq, List.forall₂_eq_eq_eq]

theorem sameFields_iff (x y : Document) : sameFields x y = true ↔
    List.Forall₂ (fun f g => f.1 = g.1 ∧ sameEncoding f.2 g.2 = true) x y := by
  induction x generalizing y with
  | nil => cases y <;> simp [sameFields]
  | cons f x ih => cases y <;> simp [sameFields, ih]

theorem sameElements_iff (x y : List Bson) :
    sameElements x y = true ↔ List.Forall₂ (fun v w => sameEncoding v w = true) x y := by
  induction x generalizing y with
  | nil => cases y <;> simp [sameElements]
  | cons v x ih => cases y <;> simp [sameElements, ih]

theorem parts_sameEncoding :
    Parts (fun s s' => eqvDoc s s' = true) (fun v w => sameEncoding v w = true) := by
  intro v w
  cases v <;> cases w <;>
    simp [Part, sameEncoding, eqv, sameFields_iff, sameElements_iff, eqvDoc, and_assoc]
  exact ⟨fun h => congrArg F64.mk h, fun h => congrArg F64.bits h⟩

/-! ## The documents and their bytes -/

/-- The scopes of two documents that differ in nothing else are equal as maps, one by one, exactly
    when they are the same documents. -/
def ScopesTold (new old : Document) : Prop :=
  bareFields new = bareFields old →
    (List.Forall₂ (fun s s' => eqvDoc s s' = true) (scopesFields new) (scopesFields old) ↔
      scopesFields new = scopesFields old)

theorem docChanged_eq_true_iff (new old : Document) : docChanged new old = true ↔
    ¬(bareFields new = bareFields old ∧
      List.Forall₂ (fun s s' => eqvDoc s s' = true) (scopesFields new) (scopesFields old)) := by
  have h := parts_sameEncoding.iff (.document new) (.document old)
  rw [sameEncoding, bare, bare, scopes, scopes, Bson.document.injEq] at h
  rw [docChanged, Bool.not_eq_true', ← h, Bool.not_eq_true]

theorem eq_iff_bare (new old : Document) :
    new = old ↔ bareFields new = bareFields old ∧ scopesFields new = scopesFields old := by
  have h := parts_eq.iff (.document new) (.document old)
  rw [bare, bare, scopes, scopes, Bson.document.injEq, Bson.document.injEq,
    List.forall₂_eq_eq_eq] at h
  exact h

/-- `doc_changed` is inequality of the documents exactly when their scopes are told apart. -/
theorem docChanged_iff_ne (new old : Document) :
    (docChanged new old = true ↔ new ≠ old) ↔ ScopesTold new old := by
  rw [docChanged_eq_true_iff, not_iff_not, eq_iff_bare new old, ScopesTold]
  exact and_congr_right_iff

/-- Documents are written as the same bytes only when they are the same. -/
theorem write_inj {C : Crate} {new old : Fields} (hnew : WellFormed new) (hold : WellFormed old)
    (hCnew : C.Documented new) (hCold : C.Documented old) :
    write C (carryFields new) = write C (carryFields old) ↔ carryFields new = carryFields old := by
  constructor
  · intro h
    rw [write_carryFields hnew hCnew, write_carryFields hold hCold] at h
    have hbytes : docBytes new = docBytes old := Except.ok.inj h
    have hread := fromBytes_eq_carryFields hnew hCnew
    rw [hbytes, fromBytes_eq_carryFields hold hCold] at hread
    exact (Except.ok.inj hread).symm
  · exact congrArg (write C)

/-- `doc_changed` says whether the encodings differ exactly when the scopes of the codes of two
    documents alike otherwise are equal as maps only where they are the same. -/
theorem docChanged_iff_write {C : Crate} {new old : Fields} (hnew : WellFormed new)
    (hold : WellFormed old) (hCnew : C.Documented new) (hCold : C.Documented old) :
    (docChanged (carryFields new) (carryFields old) = true ↔
        write C (carryFields new) ≠ write C (carryFields old)) ↔
      ScopesTold (carryFields new) (carryFields old) := by
  rw [Ne, write_inj hnew hold hCnew hCold]
  exact docChanged_iff_ne _ _

/-- A code with the scope `{a: null, b: MinKey}`, and the same with the fields the other way round. -/
def ordered : Item := .javaScriptScope [0x78] [([0x61], .null), ([0x62], .minKey)]

def swapped : Item := .javaScriptScope [0x78] [([0x62], .minKey), ([0x61], .null)]

theorem carry_ordered :
    ordered.carry = .javaScriptCodeWithScope "x" [("a", .null), ("b", .minKey)] := by
  have hscope : fieldsText [([0x61], .null), ([0x62], .minKey)] = true := by decide
  have hcode : Library.fromUtf8? [0x78] = some "x" := by decide
  have ha : nameOf [0x61] = "a" := by decide
  have hb : nameOf [0x62] = "b" := by decide
  simp [ordered, Item.carry, textOr, hscope, hcode, carryFields, ha, hb]

theorem carry_swapped :
    swapped.carry = .javaScriptCodeWithScope "x" [("b", .minKey), ("a", .null)] := by
  have hscope : fieldsText [([0x62], .minKey), ([0x61], .null)] = true := by decide
  have hcode : Library.fromUtf8? [0x78] = some "x" := by decide
  have ha : nameOf [0x61] = "a" := by decide
  have hb : nameOf [0x62] = "b" := by decide
  simp [swapped, Item.carry, textOr, hscope, hcode, carryFields, ha, hb]

/-- The crate on `{"": v}` for the two codes and what is in their scopes. -/
def scopeCrate : Crate where
  decode bytes :=
    if bytes = docBytes [([], ordered)] then .ok (carryFields [([], ordered)])
    else if bytes = docBytes [([], swapped)] then .ok (carryFields [([], swapped)])
    else if bytes = docBytes [([], .null)] then .ok (carryFields [([], .null)])
    else .ok (carryFields [([], .minKey)])
  encode d :=
    match d with
    | [("", .javaScriptCodeWithScope _ (("a", _) :: _))] => .ok (docBytes [([], ordered)])
    | [("", .javaScriptCodeWithScope _ _)] => .ok (docBytes [([], swapped)])
    | [("", .null)] => .ok (docBytes [([], .null)])
    | _ => .ok (docBytes [([], .minKey)])

theorem scopeCrate_reads {v : Item}
    (hv : v = ordered ∨ v = swapped ∨ v = .null ∨ v = .minKey) : scopeCrate.Reads [([], v)] := by
  have htext : fieldsText [([], v)] = true := by
    rcases hv with rfl | rfl | rfl | rfl <;> decide
  refine
    { decode_text := fun _ => ?_
      decode_other := fun h => absurd htext (by rw [h]; decide)
      encode_text := fun _ => ?_
      encode_nul := fun h => absurd htext (by rw [h]; decide) }
  · have hapart : (docBytes [([], swapped)] ≠ docBytes [([], ordered)]) ∧
        (∀ w ∈ [ordered, swapped], docBytes [([], .null)] ≠ docBytes [([], w)]) ∧
        ∀ w ∈ [ordered, swapped, .null], docBytes [([], .minKey)] ≠ docBytes [([], w)] := by
      decide
    simp only [List.forall_mem_cons] at hapart
    obtain ⟨hswapped, ⟨hnull, hnull', -⟩, hmin, hmin', hmin'', -⟩ := hapart
    rcases hv with rfl | rfl | rfl | rfl
    · simp only [scopeCrate, if_true]
    · simp only [scopeCrate, if_neg hswapped, if_true]
    · simp only [scopeCrate, if_neg hnull, if_neg hnull', if_true]
    · simp only [scopeCrate, if_neg hmin, if_neg hmin', if_neg hmin'']
  · simp only [carryFields, nameOf_nil]
    rcases hv with rfl | rfl | rfl | rfl
    · rw [carry_ordered]
      rfl
    · rw [carry_swapped]
      rfl
    · rfl
    · rfl

theorem scopeCrate_documented {v : Item} (hv : v = ordered ∨ v = swapped) :
    scopeCrate.Documented [([], v)] where
  whole := scopeCrate_reads (by rcases hv with h | h <;> simp [h])
  alone := by
    intro w hw
    have hmem : w = v ∨ w = .null ∨ w = .minKey := by
      rcases hv with rfl | rfl
      · simpa [leavesFields, Item.leaves, ordered] using hw
      · simp only [leavesFields, Item.leaves, swapped, List.cons_append, List.nil_append,
          List.append_nil, List.mem_cons, List.not_mem_nil, or_false] at hw
        rcases hw with h | h | h
        · exact Or.inl h
        · exact Or.inr (Or.inr h)
        · exact Or.inr (Or.inl h)
    apply scopeCrate_reads
    rcases hmem with rfl | h | h
    · rcases hv with h | h <;> simp [h]
    · simp [h]
    · simp [h]

theorem wellFormed_ordered : WellFormed [([], ordered)] where
  nodup := by decide
  shaped := by
    simp only [ordered, FieldsShaped, Item.Shaped]
    decide
  size := by decide

theorem wellFormed_swapped : WellFormed [([], swapped)] where
  nodup := by decide
  shaped := by
    simp only [swapped, FieldsShaped, Item.Shaped]
    decide
  size := by decide

theorem docChanged_iff_write_swapped :
    (docChanged (carryFields [([], swapped)]) (carryFields [([], ordered)]) = true ↔
        write scopeCrate (carryFields [([], swapped)]) ≠ write scopeCrate (carryFields [([], ordered)])) ↔
      ScopesTold (carryFields [([], swapped)]) (carryFields [([], ordered)]) :=
  docChanged_iff_write wellFormed_swapped wellFormed_ordered (scopeCrate_documented (Or.inr rfl))
    (scopeCrate_documented (Or.inl rfl))

/-- A scope whose fields changed places is no change to `doc_changed`, and other bytes. -/
theorem docChanged_scope_reordered :
    docChanged (carryFields [([], swapped)]) (carryFields [([], ordered)]) = false ∧
      write scopeCrate (carryFields [([], swapped)]) ≠ write scopeCrate (carryFields [([], ordered)]) := by
  constructor
  · simp only [carryFields, carry_ordered, carry_swapped]
    decide
  · rw [write_carryFields wellFormed_swapped (scopeCrate_documented (Or.inr rfl)),
      write_carryFields wellFormed_ordered (scopeCrate_documented (Or.inl rfl))]
    intro h
    have hbytes : docBytes [([], swapped)] = docBytes [([], ordered)] := Except.ok.inj h
    exact absurd hbytes (by decide)

end Secantus.Diff
