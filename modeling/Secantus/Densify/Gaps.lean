/-
  What `$densify` generates of integers, over a whole run: every document is pushed once, in order and unchanged,
  and in each partition the values generated are the grid's that no document has, each once
  (`rangePartitioned_fills`). A partition whose documents all have no value is not filled, and a stage with more than
  `maxFillers` values to generate defers.
-/
import Secantus.Densify.Stage

namespace Secantus.Densify

open Secantus Secantus.Library Secantus.Paths Secantus.Partitions

/-! ## Values -/

/-- The integer at a document's field. -/
def intValue (field : String) (d : Document) : Option ℤ :=
  match getPath d field with
  | some (.int32 n) => some n.toInt
  | some (.int64 n) => some n.toInt
  | _ => none

/-- A document's field is an integer, null or missing. -/
def IntegerOrMissing (field : String) (d : Document) : Prop :=
  getPath d field = none ∨ getPath d field = some .null ∨ (intValue field d).isSome

/-- The value a document has in a partition. -/
def valueIn (S : Spec) (κ : Key) (d : Document) : Option ℤ :=
  match intValue S.field d, partitionKey d S.partitionFields with
  | some x, .ok key => if key = κ then some x else none
  | _, _ => none

/-- The values of a partition, in the documents' order. -/
def valuesOf (S : Spec) (κ : Key) (docs : List Document) : List ℤ := docs.filterMap (valueIn S κ)

def Emitted.input? : Emitted → Option Document
  | .input d => some d
  | .filler _ _ _ => none

def Emitted.isFiller : Emitted → Bool
  | .input _ => false
  | .filler _ _ _ => true

/-- The integer generated for a partition. -/
def Emitted.generated? (κ : Key) : Emitted → Option ℤ
  | .filler key (.int v) _ => if key = κ then some v else none
  | _ => none

/-- The values generated for a partition. -/
def generated (κ : Key) (out : List Emitted) : List ℤ := out.filterMap (Emitted.generated? κ)

def fillers (out : List Emitted) : ℕ := (out.filter Emitted.isFiller).length

section

variable {S : Spec} {κ key : Key} {carry : Document} {d : Document} {docs : List Document} {out out' : List Emitted}
  {vs : List ℤ} {x : ℤ}

theorem generated_append : generated κ (out ++ out') = generated κ out ++ generated κ out' := List.filterMap_append

theorem fillers_append : fillers (out ++ out') = fillers out + fillers out' := by
  unfold fillers
  rw [List.filter_append, List.length_append]

theorem generated_input : generated κ [.input d] = [] := rfl

theorem generated_fillers : generated κ (vs.map (fillerOf S key carry)) = if key = κ then vs else [] := by
  induction vs with
  | nil => split <;> rfl
  | cons v vs ih =>
    have hone : Emitted.generated? κ (fillerOf S key carry v) = if key = κ then some v else none := rfl
    unfold generated at *
    rw [List.map_cons, List.filterMap_cons, hone, ih]
    by_cases hk : key = κ
    · simp [hk]
    · simp [hk]

theorem inputs_fillers : (vs.map (fillerOf S key carry)).filterMap Emitted.input? = [] := by
  induction vs with
  | nil => rfl
  | cons v vs ih =>
    rw [List.map_cons, List.filterMap_cons, ih]
    rfl

theorem fillers_fillers : fillers (vs.map (fillerOf S key carry)) = vs.length := by
  induction vs with
  | nil => rfl
  | cons v vs ih =>
    unfold fillers at *
    rw [List.map_cons, List.filter_cons_of_pos rfl, List.length_cons, List.length_cons, ih]

theorem valuesOf_append (docs' : List Document) : valuesOf S κ (docs ++ docs') = valuesOf S κ docs ++ valuesOf S κ docs' :=
  List.filterMap_append

theorem valuesOf_value (hx : intValue S.field d = some x) (hkey : partitionKey d S.partitionFields = .ok key) :
    valuesOf S κ [d] = if key = κ then [x] else [] := by
  have hvalue : valueIn S κ d = if key = κ then some x else none := by
    unfold valueIn
    rw [hx, hkey]
  unfold valuesOf
  rw [List.filterMap_cons, hvalue]
  split <;> simp_all

theorem valuesOf_missing (hx : intValue S.field d = none) : valuesOf S κ [d] = [] := by
  have hvalue : valueIn S κ d = none := by
    unfold valueIn
    rw [hx]
  unfold valuesOf
  rw [List.filterMap_cons, hvalue]
  rfl

end

/-! ## The invariant -/

/-- Where a partition's grid starts. -/
def baseOf (range : Option (ℤ × ℤ)) (vs : List ℤ) : ℤ :=
  match range with
  | some (lo, _) => lo
  | none => vs.headD 0

/-- Partition values that a filler carries are those of a document in the partition. -/
def Carried (S : Spec) (docs : List Document) (κ : Key) (carry : Document) : Prop :=
  (∃ d ∈ docs, partitionKey d S.partitionFields = .ok κ ∧ carry = carryOf d S.partitionFields) ∨
    S.partitionFields = [] ∧ κ = [] ∧ carry = []

/-- A partition that is filled: one of the documents' values, or the only one. -/
def Open (S : Spec) (range : Option (ℤ × ℤ)) (docs : List Document) (κ : Key) : Prop :=
  valuesOf S κ docs ≠ [] ∨ range.isSome ∧ S.partitionFields = [] ∧ κ = []

/-- After some of the documents: what was pushed, and where each partition is. -/
structure Inv (S : Spec) (step : ℤ) (range : Option (ℤ × ℤ)) (docs : List Document) (table : List Row)
    (out : List Emitted) : Prop where
  inputs : out.filterMap Emitted.input? = docs
  nodup : (table.map Row.key).Nodup
  absent : ∀ κ, lastOf κ table = none → ¬Open S range docs κ ∧ generated κ out = []
  present : ∀ κ last, lastOf κ table = some last → Open S range docs κ ∧ ∃ m, last = .int m ∧ Placed range m ∧
    Filled (boundOf range) (baseOf range (valuesOf S κ docs)) step (nextOf range step m) (valuesOf S κ docs)
      (generated κ out)
  behind : ∀ κ, ∀ v ∈ generated κ out, ∃ x ∈ valuesOf S κ docs, v < x
  carried : ∀ r ∈ table, Carried S docs r.key r.carry
  written : ∀ e ∈ out, (∃ d, e = .input d) ∨ ∃ κ carry v, e = fillerOf S κ carry v ∧ Carried S docs κ carry

section

variable {F : Floats} {S : Spec} {step : ℤ} {range : Option (ℤ × ℤ)} {docs : List Document} {table : List Row}
  {out : List Emitted} {d : Document} {key κ : Key} {x : ℤ}

theorem Carried.mono {carry : Document} (h : Carried S docs κ carry) (docs' : List Document) :
    Carried S (docs ++ docs') κ carry := by
  rcases h with ⟨d, hd, hkey, hcarry⟩ | h
  · exact Or.inl ⟨d, List.mem_append_left _ hd, hkey, hcarry⟩
  · exact Or.inr h

variable (key) in
/-- Where a partition is before a document of it: its next point. -/
theorem Inv.nextAt (hS : Integral S step range) (h : Inv S step range docs table out)
    (hfirst : range = none → lastOf key table ≠ none) : ∃ next, NextAt range step key table next ∧
      Filled (boundOf range) (baseOf range (valuesOf S key docs)) step next (valuesOf S key docs) (generated key out) ∧
      (range = none → valuesOf S key docs ≠ []) := by
  unfold NextAt
  cases hlast : lastOf key table with
  | none =>
    cases range with
    | none => exact absurd hlast (hfirst rfl)
    | some p =>
      obtain ⟨lo, hi⟩ := p
      obtain ⟨hopen, hgen⟩ := h.absent key hlast
      have hvalues : valuesOf S key docs = [] := by
        by_contra hne
        exact hopen (Or.inl hne)
      rw [hvalues, hgen]
      exact ⟨lo, ⟨lo, hi, rfl, rfl⟩, filled_nil _ hS.step_pos lo, fun h => nomatch h⟩
  | some last =>
    obtain ⟨hopen, m, rfl, hplaced, hfilled⟩ := h.present key last hlast
    refine ⟨_, ⟨m, rfl, hplaced, rfl⟩, hfilled, ?_⟩
    rintro rfl
    rcases hopen with hopen | ⟨hsome, -⟩
    · exact hopen
    · cases hsome

theorem Inv.mem_keys (h : Inv S step range docs table out) {carry : Document} {table' : List Row}
    (htouches : Touches key carry table table') : (table'.map Row.key).Nodup := by
  rw [htouches.keys]
  split
  · exact h.nodup
  · rename_i hnew
    exact List.nodup_append.mpr ⟨h.nodup, List.pairwise_singleton _ _, by
      rintro a ha b hb rfl
      exact hnew (List.mem_singleton.mp hb ▸ ha)⟩

/-- A document with a value, whose partition's row is there or added, keeps the invariant. -/
theorem Inv.value (h : Inv S step range docs table out) (hx : intValue S.field d = some x)
    (hkey : partitionKey d S.partitionFields = .ok key) {table' : List Row} (vs : List ℤ) {m : ℤ}
    (htouches : Touches key (carryOf d S.partitionFields) table table') (hrow : lastOf key table' = some (.int m))
    (hplaced : Placed range m)
    (hfilled : Filled (boundOf range) (baseOf range (valuesOf S key docs ++ [x])) step (nextOf range step m)
      (valuesOf S key docs ++ [x]) (generated key out ++ vs)) (hvs : ∀ v ∈ vs, v < x) :
    Inv S step range (docs ++ [d]) table'
      (out ++ (vs.map (fillerOf S key (carryOf d S.partitionFields)) ++ [.input d])) := by
  have hvalues : ∀ κ, valuesOf S κ (docs ++ [d]) = if key = κ then valuesOf S κ docs ++ [x] else valuesOf S κ docs := by
    intro κ
    rw [valuesOf_append, valuesOf_value hx hkey]
    split
    · rfl
    · rw [List.append_nil]
  have hgen : ∀ κ, generated κ (out ++ (vs.map (fillerOf S key (carryOf d S.partitionFields)) ++ [.input d])) =
      if key = κ then generated κ out ++ vs else generated κ out := by
    intro κ
    rw [generated_append, generated_append, generated_fillers, generated_input, List.append_nil]
    split
    · rfl
    · rw [List.append_nil]
  have hcarry : Carried S (docs ++ [d]) key (carryOf d S.partitionFields) :=
    Or.inl ⟨d, List.mem_append_right _ List.mem_cons_self, hkey, rfl⟩
  constructor
  · rw [List.filterMap_append, List.filterMap_append, inputs_fillers, h.inputs]
    rfl
  · exact h.mem_keys htouches
  · intro κ hnone
    have hne : key ≠ κ := by
      rintro rfl
      rw [hrow] at hnone
      cases hnone
    rw [htouches.others κ (Ne.symm hne)] at hnone
    unfold Open
    rw [hvalues, hgen, if_neg hne, if_neg hne]
    exact h.absent κ hnone
  · intro κ last hlast
    unfold Open
    by_cases hk : key = κ
    · subst hk
      rw [hrow] at hlast
      rw [hvalues, hgen, if_pos rfl, if_pos rfl]
      exact ⟨Or.inl (by simp), m, (Option.some.inj hlast).symm, hplaced, hfilled⟩
    · rw [htouches.others κ (Ne.symm hk)] at hlast
      rw [hvalues, hgen, if_neg hk, if_neg hk]
      exact h.present κ last hlast
  · intro κ v hv
    rw [hgen] at hv
    rw [hvalues]
    by_cases hk : key = κ
    · rw [if_pos hk] at hv ⊢
      rcases List.mem_append.mp hv with hv | hv
      · obtain ⟨y, hy, hlt⟩ := h.behind κ v hv
        exact ⟨y, List.mem_append_left _ hy, hlt⟩
      · exact ⟨x, List.mem_append_right _ List.mem_cons_self, hvs v hv⟩
    · rw [if_neg hk] at hv ⊢
      exact h.behind κ v hv
  · intro r hr
    rcases htouches.carried r hr with ⟨r₀, hr₀, hk, hc⟩ | ⟨hk, hc⟩
    · rw [← hk, ← hc]
      exact (h.carried r₀ hr₀).mono [d]
    · rw [hk, hc]
      exact hcarry
  · intro e he
    rcases List.mem_append.mp he with he | he
    · rcases h.written e he with hin | ⟨κ, carry, v, hv, hc⟩
      · exact Or.inl hin
      · exact Or.inr ⟨κ, carry, v, hv, hc.mono [d]⟩
    · rcases List.mem_append.mp he with he | he
      · obtain ⟨v, -, rfl⟩ := List.mem_map.mp he
        exact Or.inr ⟨key, _, v, rfl, hcarry⟩
      · exact Or.inl ⟨d, List.mem_singleton.mp he⟩

theorem Inv.missing (h : Inv S step range docs table out) (hx : intValue S.field d = none) :
    Inv S step range (docs ++ [d]) table (out ++ [.input d]) := by
  have hvalues : ∀ κ, valuesOf S κ (docs ++ [d]) = valuesOf S κ docs := by
    intro κ
    rw [valuesOf_append, valuesOf_missing hx, List.append_nil]
  have hgen : ∀ κ, generated κ (out ++ [.input d]) = generated κ out := by
    intro κ
    rw [generated_append, generated_input, List.append_nil]
  constructor
  · rw [List.filterMap_append, h.inputs]
    rfl
  · exact h.nodup
  · intro κ hnone
    unfold Open
    rw [hvalues, hgen]
    exact h.absent κ hnone
  · intro κ last hlast
    unfold Open
    rw [hvalues, hgen]
    exact h.present κ last hlast
  · intro κ v hv
    rw [hgen] at hv
    rw [hvalues]
    exact h.behind κ v hv
  · exact fun r hr => (h.carried r hr).mono [d]
  · intro e he
    rcases List.mem_append.mp he with he | he
    · rcases h.written e he with hin | ⟨κ, carry, v, hv, hc⟩
      · exact Or.inl hin
      · exact Or.inr ⟨κ, carry, v, hv, hc.mono [d]⟩
    · exact Or.inl ⟨d, List.mem_singleton.mp he⟩

theorem numOf_value {v : Bson} (hget : getPath d S.field = some v) (hx : intValue S.field d = some x) :
    numOf v = some (.int x) ∧ Long x ∧ v ≠ .null := by
  unfold intValue at hx
  rw [hget] at hx
  cases v with
  | int32 n =>
    obtain rfl := Option.some.inj hx
    have := n.toInt_lt
    have := n.le_toInt
    exact ⟨rfl, ⟨by omega, by omega⟩, fun h => nomatch h⟩
  | int64 n =>
    obtain rfl := Option.some.inj hx
    exact ⟨rfl, ⟨n.le_toInt, n.toInt_lt⟩, fun h => nomatch h⟩
  | _ => cases hx

theorem place_value {v : Bson} (hget : getPath d S.field = some v) (hx : intValue S.field d = some x)
    (hkey : partitionKey d S.partitionFields = .ok key) :
    place F S d table = placeValue F S d (.int x) key (carryOf d S.partitionFields) table := by
  obtain ⟨hnum, -, hnull⟩ := numOf_value hget hx
  unfold place
  rw [hget]
  split
  · rename_i h
    cases h
  · rename_i h
    exact absurd (Option.some.inj h) hnull
  · rename_i w h
    obtain rfl := Option.some.inj h
    rw [hnum, hkey]

theorem place_missing (hd : getPath d S.field = none ∨ getPath d S.field = some .null) :
    place F S d table = pure ([.input d], table) := by
  unfold place
  rcases hd with hd | hd
  · rw [hd]
  · rw [hd]

theorem baseOf_append (h : range = none → valuesOf S key docs ≠ []) :
    baseOf range (valuesOf S key docs ++ [x]) = baseOf range (valuesOf S key docs) := by
  unfold baseOf
  cases range with
  | some p => rfl
  | none =>
    obtain ⟨y, ys, hys⟩ := List.exists_cons_of_ne_nil (h rfl)
    rw [hys]
    rfl

/-- A document keeps the invariant, at the cost of what it generates. -/
theorem Inv.place (hS : Integral S step range) (h : Inv S step range docs table out)
    (hd : IntegerOrMissing S.field d)
    (hkey : intValue S.field d ≠ none → ∃ key, partitionKey d S.partitionFields = .ok key)
    (hsorted : ∀ κ, (valuesOf S κ (docs ++ [d])).Pairwise (· ≤ ·)) :
    ∃ out' table', Costs (place F S d table) (out', table') (fillers out') ∧
      Inv S step range (docs ++ [d]) table' (out ++ out') := by
  cases hx : intValue S.field d with
  | none =>
    have hmissing : getPath d S.field = none ∨ getPath d S.field = some .null := by
      rcases hd with hd | hd | hd
      · exact Or.inl hd
      · exact Or.inr hd
      · rw [hx] at hd
        cases hd
    rw [place_missing hmissing]
    exact ⟨_, _, costs_pure _, h.missing hx⟩
  | some x =>
    obtain ⟨key, hkey⟩ := hkey (by rw [hx]; exact fun h => nomatch h)
    obtain ⟨v, hget⟩ : ∃ v, getPath d S.field = some v := by
      unfold intValue at hx
      cases hget : getPath d S.field with
      | none =>
        rw [hget] at hx
        cases hx
      | some v => exact ⟨v, rfl⟩
    obtain ⟨-, hlong, -⟩ := numOf_value hget hx
    rw [place_value hget hx hkey]
    by_cases hfirst : range = none ∧ lastOf key table = none
    · obtain ⟨rfl, hlast⟩ := hfirst
      obtain ⟨hopen, hgen⟩ := h.absent key hlast
      have hvalues : valuesOf S key docs = [] := by
        by_contra hne
        exact hopen (Or.inl hne)
      unfold placeValue
      rw [hlast, hS.range_none]
      refine ⟨_, _, costs_pure _, ?_⟩
      have hfilled := (filled_nil none hS.step_pos x).hit hS.step_pos
      have hinv := h.value hx hkey [] (m := x) (touches_append hlast) (lastOf_append_self hlast)
        ⟨by have := hlong.1; omega, hlong.2, fun _ => hlong.1⟩ (by rw [hvalues, hgen]; exact hfilled)
        (fun v hv => nomatch hv)
      simpa using hinv
    · obtain ⟨next, hnext, hfilled, hvalues⟩ := h.nextAt key hS fun hr hl => hfirst ⟨hr, hl⟩
      obtain ⟨table', hcosts, ⟨m, hrow, hplaced, hmoved⟩, htouches⟩ :=
        placeValue_costs (F := F) d (carryOf d S.partitionFields) hS hlong hnext
      have hnot : x ∉ generated key out := by
        intro hmem
        obtain ⟨y, hy, hlt⟩ := h.behind key x hmem
        have hle := hsorted key
        rw [valuesOf_append, valuesOf_value hx hkey, if_pos rfl, List.pairwise_append] at hle
        have := hle.2.2 y hy x List.mem_cons_self
        omega
      refine ⟨(advance (boundOf range) step next x).2.map (fillerOf S key (carryOf d S.partitionFields)) ++ [.input d],
        table', ?_, h.value hx hkey _ htouches hrow hplaced ?_ ?_⟩
      · rw [fillers_append, fillers_fillers]
        exact hcosts
      · rw [baseOf_append hvalues]
        rcases hmoved with hmoved | ⟨hmoved, hout⟩
        · rw [hmoved]
          exact hfilled.advance hS.step_pos hnot
        · rw [hmoved, advance_outside hout, List.append_nil]
          exact hfilled.skip (Or.inr hout) hnot
      · exact fun v hv => lt_of_mem_advance hS.step_pos hv

/-- The documents, one after the other. -/
theorem Inv.placeAll (hS : Integral S step range) (h : Inv S step range docs table out) (rest : List Document)
    (hrest : ∀ d ∈ rest, IntegerOrMissing S.field d)
    (hkeys : ∀ d ∈ rest, intValue S.field d ≠ none → ∃ key, partitionKey d S.partitionFields = .ok key)
    (hsorted : ∀ κ, (valuesOf S κ (docs ++ rest)).Pairwise (· ≤ ·)) :
    ∃ out' table', Costs (placeAll F S table rest) (out', table') (fillers out') ∧
      Inv S step range (docs ++ rest) table' (out ++ out') := by
  induction rest generalizing docs table out with
  | nil => exact ⟨[], table, costs_pure _, by simpa using h⟩
  | cons d rest ih =>
    have hsplit : docs ++ d :: rest = docs ++ [d] ++ rest := by simp
    rw [hsplit] at hsorted ⊢
    have hprefix : ∀ κ, (valuesOf S κ (docs ++ [d])).Pairwise (· ≤ ·) := by
      intro κ
      have hall := hsorted κ
      rw [valuesOf_append] at hall
      exact (List.pairwise_append.mp hall).1
    obtain ⟨out₁, table₁, hcosts₁, h₁⟩ := h.place (F := F) hS (hrest d List.mem_cons_self) (hkeys d List.mem_cons_self)
      hprefix
    obtain ⟨out₂, table₂, hcosts₂, h₂⟩ := ih h₁ (fun d hd => hrest d (List.mem_cons_of_mem _ hd))
      (fun d hd => hkeys d (List.mem_cons_of_mem _ hd)) hsorted
    refine ⟨out₁ ++ out₂, table₂, ?_, by rwa [List.append_assoc out] at h₂⟩
    rw [fillers_append]
    exact hcosts₁.bind (hcosts₂.map_pure fun p => (out₁ ++ p.1, p.2))

/-! ## The rest of the range -/

/-- What is generated at the end from one row. -/
def rowRest (S : Spec) (step lo hi : ℤ) (row : Row) : List Emitted :=
  match row.last with
  | .int m => (pointsBelow step (nextOf (some (lo, hi)) step m) hi).map (fillerOf S row.key row.carry)
  | .float _ => []

theorem finish_costs {lo hi : ℤ} (hS : Integral S step (some (lo, hi))) {rows : List Row}
    (hrows : ∀ r ∈ rows, ∃ m, r.last = .int m ∧ Placed (some (lo, hi)) m) :
    Costs (finish F S (.int lo) (.int hi) rows) (rows.flatMap (rowRest S step lo hi))
      (fillers (rows.flatMap (rowRest S step lo hi))) := by
  have hpos := hS.step_pos
  have hstep := hS.step_lt
  obtain ⟨hlol, hhil, hlohi⟩ := hS.range_long lo hi rfl
  unfold Long at hlol hhil
  induction rows with
  | nil => exact costs_pure []
  | cons row rows ih =>
    obtain ⟨m, hm, hml, hmu, -⟩ := hrows row List.mem_cons_self
    have hnext : (if less (.int m) (.int lo) = true then Num.int lo else add F (.int m) S.step) =
        .int (nextOf (some (lo, hi)) step m) := by
      rw [less_int ⟨by omega, by omega⟩ ⟨by omega, by omega⟩, hS.step_eq]
      unfold nextOf
      by_cases hlt : m < lo
      · simp [hlt]
      · simp [hlt, add]
    have hbound : -2 ^ 63 ≤ nextOf (some (lo, hi)) step m ∧ nextOf (some (lo, hi)) step m ≤ 2 ^ 65 := by
      unfold nextOf
      simp only
      split
      · omega
      · omega
    have hloop := fillWhile_costs (F := F) row.key row.carry hi hS.step_eq hpos hstep (by omega) (by omega) hbound.1
      hbound.2 row.last
    have hrest := ih fun r hr => hrows r (List.mem_cons_of_mem _ hr)
    have hrow : rowRest S step lo hi row =
        (pointsBelow step (nextOf (some (lo, hi)) step m) hi).map (fillerOf S row.key row.carry) := by
      unfold rowRest
      rw [hm]
    rw [List.flatMap_cons, fillers_append, hrow, fillers_fillers]
    unfold finish
    rw [hm, hnext]
    rw [hm] at hloop
    refine hloop.bind ?_
    exact hrest.map_pure fun rest =>
      (pointsBelow step (nextOf (some (lo, hi)) step m) hi).map (fillerOf S row.key row.carry) ++ rest

/-- What is generated at the end for a partition is from its row. -/
theorem generated_rest {lo hi : ℤ} {rows : List Row} (hnodup : (rows.map Row.key).Nodup) (κ : Key) :
    generated κ (rows.flatMap (rowRest S step lo hi)) =
      match lastOf κ rows with
      | some (.int m) => pointsBelow step (nextOf (some (lo, hi)) step m) hi
      | _ => [] := by
  induction rows with
  | nil => rfl
  | cons row rows ih =>
    rw [List.map_cons, List.nodup_cons] at hnodup
    rw [List.flatMap_cons, generated_append, ih hnodup.2, lastOf_cons]
    have hrow : generated κ (rowRest S step lo hi row) = if row.key = κ then
        (match row.last with
          | .int m => pointsBelow step (nextOf (some (lo, hi)) step m) hi
          | .float _ => []) else [] := by
      unfold rowRest
      cases hlast : row.last with
      | int m => exact generated_fillers
      | float f =>
        rw [ite_self]
        rfl
    rw [hrow]
    by_cases hk : row.key = κ
    · have hnone : lastOf κ rows = none := lastOf_eq_none_iff.mpr (hk ▸ hnodup.1)
      rw [if_pos hk, if_pos hk, hnone]
      cases row.last with
      | int m => simp
      | float f => simp
    · rw [if_neg hk, if_neg hk]
      rfl

/-! ## A whole run -/

theorem inv_firstTable (hS : Integral S step range) : Inv S step range [] (firstTable F S) [] := by
  have hclosed : ∀ {κ}, ¬(range.isSome ∧ S.partitionFields = [] ∧ κ = []) → ¬Open S range [] κ :=
    fun hnot hopen => hopen.elim (fun hne => hne rfl) hnot
  by_cases hwhole : range.isSome ∧ S.partitionFields = []
  · obtain ⟨⟨lo, hi⟩, rfl⟩ := Option.isSome_iff_exists.mp hwhole.1
    obtain ⟨hlol, -, -⟩ := hS.range_long lo hi rfl
    have hstep := hS.step_lt
    have hpos := hS.step_pos
    unfold Long at hlol
    have htable : firstTable F S = [⟨[], [], .int (lo - step)⟩] := by
      unfold firstTable sub
      rw [hS.range_some, hS.step_eq]
      exact if_pos hwhole.2
    have hnext : nextOf (some (lo, hi)) step (lo - step) = lo := if_pos (by omega)
    rw [htable]
    constructor
    · rfl
    · exact List.pairwise_singleton _ _
    · intro κ hnone
      rw [lastOf_cons] at hnone
      refine ⟨hclosed fun h => ?_, rfl⟩
      rw [if_pos h.2.2.symm] at hnone
      cases hnone
    · intro κ last hlast
      rw [lastOf_cons] at hlast
      by_cases hκ : ([] : Key) = κ
      · rw [if_pos hκ] at hlast
        refine ⟨Or.inr ⟨rfl, hwhole.2, hκ.symm⟩, lo - step, (Option.some.inj hlast).symm,
          ⟨by omega, by omega, (fun h => nomatch h)⟩, ?_⟩
        rw [hnext]
        exact filled_nil _ hpos lo
      · rw [if_neg hκ] at hlast
        cases hlast
    · exact fun κ v hv => nomatch hv
    · intro r hr
      rw [List.mem_singleton.mp hr]
      exact Or.inr ⟨hwhole.2, rfl, rfl⟩
    · exact fun e he => nomatch he
  · have htable : firstTable F S = [] := by
      unfold firstTable
      cases range with
      | none => rw [hS.range_none]
      | some p =>
        obtain ⟨lo, hi⟩ := p
        rw [hS.range_some]
        exact if_neg fun hfields => hwhole ⟨rfl, hfields⟩
    rw [htable]
    constructor
    · rfl
    · exact List.nodup_nil
    · exact fun κ _ => ⟨hclosed fun h => hwhole ⟨h.1, h.2.1⟩, rfl⟩
    · exact fun κ last hlast => nomatch hlast
    · exact fun κ v hv => nomatch hv
    · exact fun r hr => nomatch hr
    · exact fun e he => nomatch he

/-- The gaps of a list of documents are filled: each document is pushed once, and in each partition each value is
    generated once: those of the grid between the partition's first value and its last, or, of a range, those of a
    partition with a value, or of the only one. -/
structure Densified (S : Spec) (step : ℤ) (range : Option (ℤ × ℤ)) (docs : List Document) (out : List Emitted) :
    Prop where
  inputs : (out.filterMap Emitted.input?).Perm docs
  nodup : ∀ κ, (generated κ out).Nodup
  between : range = none → ∀ κ v, v ∈ generated κ out ↔ ∃ first ∈ valuesOf S κ docs, ∃ last ∈ valuesOf S κ docs,
    (∀ y ∈ valuesOf S κ docs, first ≤ y ∧ y ≤ last) ∧ OnGrid first step v ∧ first < v ∧ v < last ∧
      v ∉ valuesOf S κ docs
  within : ∀ lo hi, range = some (lo, hi) → ∀ κ v, v ∈ generated κ out ↔
    Open S range docs κ ∧ OnGrid lo step v ∧ v < hi ∧ v ∉ valuesOf S κ docs
  written : ∀ e ∈ out, (∃ d, e = .input d) ∨ ∃ κ carry v, e = fillerOf S κ carry v ∧ Carried S docs κ carry

/-- Between a partition's first value and its last, the gaps are filled. -/
theorem Inv.between (hS : Integral S step none) (h : Inv S step none docs table out)
    (hsorted : ∀ κ, (valuesOf S κ docs).Pairwise (· ≤ ·)) (κ : Key) (v : ℤ) :
    v ∈ generated κ out ↔ ∃ first ∈ valuesOf S κ docs, ∃ last ∈ valuesOf S κ docs,
      (∀ y ∈ valuesOf S κ docs, first ≤ y ∧ y ≤ last) ∧ OnGrid first step v ∧ first < v ∧ v < last ∧
        v ∉ valuesOf S κ docs := by
  cases hlast : lastOf κ table with
  | none =>
    obtain ⟨hopen, hgen⟩ := h.absent κ hlast
    have hvalues : valuesOf S κ docs = [] := by
      by_contra hne
      exact hopen (Or.inl hne)
    rw [hgen, hvalues]
    simp
  | some last =>
    obtain ⟨hopen, m, rfl, -, hfilled⟩ := h.present κ last hlast
    have hne : valuesOf S κ docs ≠ [] := hopen.resolve_right fun h => nomatch h.1
    have hbehind := h.behind κ
    have hle := hsorted κ
    obtain ⟨first, rest, hfirst⟩ := List.exists_cons_of_ne_nil hne
    obtain ⟨ys, top, htop⟩ : ∃ ys top, valuesOf S κ docs = ys ++ [top] :=
      ⟨_, _, (List.dropLast_append_getLast hne).symm⟩
    have hbase : baseOf none (valuesOf S κ docs) = first := by
      rw [hfirst]
      rfl
    rw [hbase] at hfilled
    have hfirstmem : first ∈ valuesOf S κ docs := by
      rw [hfirst]
      exact List.mem_cons_self
    have htopmem : top ∈ valuesOf S κ docs := by
      rw [htop]
      exact List.mem_append_right _ List.mem_cons_self
    have hfirstle : ∀ y ∈ valuesOf S κ docs, first ≤ y := by
      intro y hy
      rw [hfirst] at hy hle
      rcases List.mem_cons.mp hy with rfl | hy
      · exact le_refl y
      · exact (List.pairwise_cons.mp hle).1 y hy
    have htople : ∀ y ∈ valuesOf S κ docs, y ≤ top := by
      intro y hy
      rw [htop] at hy hle
      rcases List.mem_append.mp hy with hy | hy
      · exact (List.pairwise_append.mp hle).2.2 y hy top List.mem_cons_self
      · exact (List.mem_singleton.mp hy).le
    constructor
    · intro hv
      obtain ⟨hgrid, -, -, hnot⟩ := (hfilled.mem_iff v).mp hv
      obtain ⟨y, hy, hlt⟩ := hbehind v hv
      refine ⟨first, hfirstmem, top, htopmem, fun y hy => ⟨hfirstle y hy, htople y hy⟩, hgrid, ?_,
        hlt.trans_le (htople y hy), hnot⟩
      exact lt_of_le_of_ne (hgrid.base_le hS.step_pos) fun heq => hnot (heq ▸ hfirstmem)
    · rintro ⟨first', hf, last', hl, hends, hgrid, -, hlt, hnot⟩
      have heq : first' = first := le_antisymm (hends first hfirstmem).1 (hfirstle first' hf)
      have hinside : ∀ w, Inside (boundOf none) w := fun w b hb => nomatch hb
      exact (hfilled.mem_iff v).mpr ⟨heq ▸ hgrid, hlt.trans (hfilled.seen _ hl (hinside _)), hinside v, hnot⟩

theorem Inv.finish {lo hi : ℤ} (hS : Integral S step (some (lo, hi))) (h : Inv S step (some (lo, hi)) docs table out)
    (κ : Key) : (generated κ (out ++ table.flatMap (rowRest S step lo hi))).Nodup ∧
      ∀ v, v ∈ generated κ (out ++ table.flatMap (rowRest S step lo hi)) ↔
        Open S (some (lo, hi)) docs κ ∧ OnGrid lo step v ∧ v < hi ∧ v ∉ valuesOf S κ docs := by
  rw [generated_append, generated_rest h.nodup]
  cases hlast : lastOf κ table with
  | none =>
    obtain ⟨hopen, hgen⟩ := h.absent κ hlast
    rw [hgen]
    simp [hopen]
  | some last =>
    obtain ⟨hopen, m, rfl, -, hfilled⟩ := h.present κ last hlast
    obtain ⟨hnodup, hmem⟩ := hfilled.finish hS.step_pos
    exact ⟨hnodup, fun v => (hmem v).trans ⟨fun hv => ⟨hopen, hv⟩, fun hv => hv.2⟩⟩

theorem Inv.placed {lo hi : ℤ} (h : Inv S step (some (lo, hi)) docs table out) :
    ∀ r ∈ table, ∃ m, r.last = .int m ∧ Placed (some (lo, hi)) m := by
  intro r hr
  obtain ⟨-, m, hm, hplaced, -⟩ := h.present r.key r.last (lastOf_of_mem h.nodup hr)
  exact ⟨m, hm, hplaced⟩

/-- Over documents sorted in their partitions, whose fields are integers, null or missing and whose partition values
    have keys, the stage fills the gaps, unless it is to generate more than `maxFillers` values. -/
theorem rangePartitioned_densified (F : Floats) (hS : Integral S step range)
    (hdocs : ∀ d ∈ docs, IntegerOrMissing S.field d)
    (hkeys : ∀ d ∈ docs, intValue S.field d ≠ none → ∃ key, partitionKey d S.partitionFields = .ok key)
    (hsorted : ∀ κ, (valuesOf S κ docs).Pairwise (· ≤ ·)) :
    ∃ out, Densified S step range docs out ∧
      rangePartitioned F S docs = if fillers out ≤ maxFillers then .ok out else .error .defer := by
  obtain ⟨out, table, hcosts, hinv⟩ := (inv_firstTable (F := F) hS).placeAll (F := F) hS docs hdocs hkeys hsorted
  rw [List.nil_append, List.nil_append] at hinv
  unfold rangePartitioned
  cases range with
  | none =>
    refine ⟨out, ⟨by rw [hinv.inputs], ?_, fun _ => hinv.between hS hsorted, (fun _ _ h => nomatch h), hinv.written⟩,
      ?_⟩
    · intro κ
      cases hlast : lastOf κ table with
      | none =>
        rw [(hinv.absent κ hlast).2]
        exact List.nodup_nil
      | some last =>
        obtain ⟨-, m, -, -, hfilled⟩ := hinv.present κ last hlast
        exact hfilled.nodup
    · rw [hS.range_none]
      exact (hcosts.map_pure Prod.fst).run'
  | some p =>
    obtain ⟨lo, hi⟩ := p
    refine ⟨out ++ table.flatMap (rowRest S step lo hi), ⟨?_, fun κ => (hinv.finish hS κ).1, (fun h => nomatch h), ?_,
      ?_⟩, ?_⟩
    · have hrest : ∀ rows, (List.flatMap (rowRest S step lo hi) rows).filterMap Emitted.input? = [] := by
        intro rows
        rw [List.filterMap_flatMap, List.flatMap_eq_nil_iff]
        intro r _
        unfold rowRest
        split
        · exact inputs_fillers
        · rfl
      rw [List.filterMap_append, hinv.inputs, hrest, List.append_nil]
    · intro lo' hi' heq κ v
      cases heq
      exact (hinv.finish hS κ).2 v
    · intro e he
      rcases List.mem_append.mp he with he | he
      · exact hinv.written e he
      · obtain ⟨r, hr, he⟩ := List.mem_flatMap.mp he
        unfold rowRest at he
        split at he
        · obtain ⟨v, -, rfl⟩ := List.mem_map.mp he
          exact Or.inr ⟨r.key, r.carry, v, rfl, hinv.carried r hr⟩
        · cases he
    · rw [hS.range_some, fillers_append]
      refine Costs.run' (hcosts.bind ?_)
      exact (finish_costs hS hinv.placed).map_pure fun rest => out ++ rest

/-! ## The stage with its sort -/

/-- What the sort by the partition fields and then the field gives: the documents, each partition in the order of its
    values. -/
structure Sorted (S : Spec) (docs sorted : List Document) : Prop where
  perm : sorted.Perm docs
  ascending : ∀ κ, (valuesOf S κ sorted).Pairwise (· ≤ ·)

theorem Densified.of_perm {docs' : List Document} (hperm : docs.Perm docs') (h : Densified S step range docs out) :
    Densified S step range docs' out := by
  have hmem : ∀ κ v, v ∈ valuesOf S κ docs ↔ v ∈ valuesOf S κ docs' := fun κ v => (hperm.filterMap _).mem_iff
  have hopen : ∀ κ, Open S range docs κ ↔ Open S range docs' κ := by
    intro κ
    have hnil : valuesOf S κ docs = [] ↔ valuesOf S κ docs' = [] := by
      rw [List.eq_nil_iff_forall_not_mem, List.eq_nil_iff_forall_not_mem]
      simp only [hmem]
    unfold Open
    rw [Ne, hnil]
  constructor
  · exact h.inputs.trans hperm
  · exact h.nodup
  · intro hr κ v
    rw [h.between hr κ v]
    simp only [hmem]
  · intro lo hi hr κ v
    rw [h.within lo hi hr κ v, hopen, hmem]
  · intro e he
    rcases h.written e he with hin | ⟨κ, carry, v, hv, hc⟩
    · exact Or.inl hin
    · refine Or.inr ⟨κ, carry, v, hv, ?_⟩
      rcases hc with ⟨d, hd, hkey⟩ | hc
      · exact Or.inl ⟨d, hperm.mem_iff.mp hd, hkey⟩
      · exact Or.inr hc

/-- The stage on a list of documents, sorted first. -/
def densify (F : Floats) (S : Spec) (sort : List Document → Except Fallback (List Document)) (docs : List Document) :
    Except Fallback (List Emitted) := do
  let sorted ← sort docs
  rangePartitioned F S sorted

end

/-! ## Two stages -/

/-- No floats. -/
def noFloats : Floats where
  ofInt _ := F64.nan
  add _ _ := F64.nan
  sub _ _ := F64.nan

/-- `{field: "v", partitionByFields: ["g"], range: {step: 2, bounds: [0, 4]}}`. -/
def gapSpec : Spec where
  field := "v"
  step := .int 2
  range := some (.int 0, .int 4)
  partitionFields := ["g"]

/-- `{v: 1, g: 1}` and `{v: 2, g: 1}`. -/
def gapDocs : List Document := [[("v", .int32 1), ("g", .int32 1)], [("v", .int32 2), ("g", .int32 1)]]

theorem gapSpec_integral : Integral gapSpec 2 (some (0, 4)) where
  step_eq := rfl
  step_pos := by decide
  step_lt := by decide
  range_eq := rfl
  range_long := by
    intro lo hi h
    cases h
    exact ⟨⟨by decide, by decide⟩, ⟨by decide, by decide⟩, by decide⟩

/-- The partition of `g: 1`. -/
def gapKey : Key := [some (.atom (.num (.finite 1 [1] 0)))]

theorem gapDocs_keys : ∀ d ∈ gapDocs, partitionKey d ["g"] = .ok gapKey := by decide

theorem gapDocs_values (κ : Key) : valuesOf gapSpec κ gapDocs = if gapKey = κ then [1, 2] else [] := by
  have hone : valueIn gapSpec κ [("v", .int32 1), ("g", .int32 1)] = if gapKey = κ then some 1 else none := by
    unfold valueIn
    rw [show partitionKey [("v", .int32 1), ("g", .int32 1)] gapSpec.partitionFields = .ok gapKey from
      gapDocs_keys _ List.mem_cons_self]
    rfl
  have htwo : valueIn gapSpec κ [("v", .int32 2), ("g", .int32 1)] = if gapKey = κ then some 2 else none := by
    unfold valueIn
    rw [show partitionKey [("v", .int32 2), ("g", .int32 1)] gapSpec.partitionFields = .ok gapKey from
      gapDocs_keys _ (List.mem_cons_of_mem _ List.mem_cons_self)]
    rfl
  unfold valuesOf gapDocs
  rw [List.filterMap_cons, List.filterMap_cons, hone, htwo]
  by_cases hκ : gapKey = κ
  · simp [hκ]
  · simp [hκ]

end Secantus.Densify
