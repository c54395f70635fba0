/-
  Half-open spans of a linear order, unbounded where an end is missing, and the merging of a sorted list of
  them into spans that lie apart.

  * `holds_join`: merging keeps what the spans hold;
  * `apart_join`: each merged span ends below the start of every later one.
-/
import Mathlib.Order.Lattice
import Mathlib.Order.MinMax
import Mathlib.Data.List.Sort

namespace Spans

/-- From `lo` on, below `hi`. -/
structure Span (α : Type*) where
  lo : Option α
  hi : Option α
  deriving DecidableEq

variable {α : Type*} [LinearOrder α]

namespace Span

def Holds (s : Span α) (x : α) : Prop := (∀ l, s.lo = some l → l ≤ x) ∧ ∀ h, s.hi = some h → x < h

/-- The ends leave room. -/
def proper (s : Span α) : Bool :=
  match s.lo, s.hi with
  | some l, some h => l < h
  | _, _ => true

/-- `s` starts where `t` does or before. -/
def startsBy (s t : Span α) : Bool :=
  match s.lo, t.lo with
  | none, _ => true
  | some _, none => false
  | some a, some b => a ≤ b

/-- Nothing lies between the end of `s` and the start of `t`. -/
def touches (s t : Span α) : Bool :=
  match s.hi, t.lo with
  | none, _ => true
  | some _, none => true
  | some h, some l => l ≤ h

def laterEnd (a b : Option α) : Option α :=
  match a, b with
  | some a, some b => some (max a b)
  | _, _ => none

/-- `s` ends below the start of `t`. -/
def Apart (s t : Span α) : Prop := ∃ h l, s.hi = some h ∧ t.lo = some l ∧ h < l

theorem not_holds_of_improper {s : Span α} (h : s.proper = false) (x : α) : ¬ s.Holds x := by
  intro hx
  unfold proper at h
  split at h
  · rename_i l r hl hr
    exact of_decide_eq_false h (lt_of_le_of_lt (hx.1 l hl) (hx.2 r hr))
  · cases h

theorem startsBy_iff {s t : Span α} :
    s.startsBy t = true ↔ ∀ a, s.lo = some a → ∃ b, t.lo = some b ∧ a ≤ b := by
  unfold startsBy
  cases hs : s.lo with
  | none => exact iff_of_true rfl nofun
  | some a =>
    cases ht : t.lo with
    | none =>
      refine iff_of_false nofun fun h => ?_
      obtain ⟨b, hb, -⟩ := h a rfl
      cases hb
    | some b =>
      refine ⟨fun h c hc => ⟨b, rfl, ?_⟩, fun h => ?_⟩
      · obtain rfl := Option.some.inj hc
        exact of_decide_eq_true h
      · obtain ⟨c, hc, hle⟩ := h a rfl
        obtain rfl := Option.some.inj hc
        exact decide_eq_true hle

theorem startsBy_trans {s t u : Span α} (hst : s.startsBy t = true) (htu : t.startsBy u = true) :
    s.startsBy u = true := by
  rw [startsBy_iff] at *
  intro a ha
  obtain ⟨b, hb, hab⟩ := hst a ha
  obtain ⟨c, hc, hbc⟩ := htu b hb
  exact ⟨c, hc, le_trans hab hbc⟩

theorem startsBy_total (s t : Span α) : s.startsBy t = true ∨ t.startsBy s = true := by
  unfold startsBy
  cases s.lo with
  | none => exact .inl rfl
  | some a =>
    cases t.lo with
    | none => exact .inr rfl
    | some b => exact (le_total a b).imp decide_eq_true decide_eq_true

theorem startsBy_refl (s : Span α) : s.startsBy s = true := (startsBy_total s s).elim id id

theorem not_touches_iff {s t : Span α} : s.touches t = false ↔ s.Apart t := by
  unfold touches Apart
  cases s.hi with
  | none => simp
  | some h =>
    cases t.lo with
    | none => simp
    | some l => simp

theorem Apart.not_holds {s t : Span α} (h : s.Apart t) {x : α} (hs : s.Holds x) : ¬ t.Holds x := by
  obtain ⟨e, b, he, hb, hlt⟩ := h
  intro ht
  exact absurd (lt_of_le_of_lt (ht.1 b hb) (hs.2 e he)) (not_lt_of_gt hlt)

theorem Apart.trans {s t u : Span α} (h : s.Apart t) (htu : t.startsBy u = true) : s.Apart u := by
  obtain ⟨e, b, he, hb, hlt⟩ := h
  obtain ⟨c, hc, hbc⟩ := startsBy_iff.mp htu b hb
  exact ⟨e, c, he, hc, lt_of_lt_of_le hlt hbc⟩

/-- Two spans that touch hold together what the one from the first start to the later end does. -/
theorem holds_merged {s t : Span α} (hst : s.startsBy t = true) (htouch : s.touches t = true) (x : α) :
    Holds ⟨s.lo, laterEnd s.hi t.hi⟩ x ↔ s.Holds x ∨ t.Holds x := by
  have hstart := startsBy_iff.mp hst
  have hlo : t.Holds x → ∀ l, s.lo = some l → l ≤ x := by
    intro ht l hl
    obtain ⟨m, hm, hle⟩ := hstart l hl
    exact le_trans hle (ht.1 m hm)
  constructor
  · rintro ⟨hl, hh⟩
    by_cases hs : s.Holds x
    · exact .inl hs
    · refine .inr ⟨?_, ?_⟩
      · -- x is past the end of `s`, and `t` starts by then
        intro m hm
        by_contra hx
        refine hs ⟨hl, fun h hh => ?_⟩
        unfold touches at htouch
        rw [hh, hm] at htouch
        exact lt_of_lt_of_le (lt_of_not_ge hx) (of_decide_eq_true htouch)
      · intro h ht
        cases hsh : s.hi with
        | none => exact absurd ⟨hl, fun _ h0 => nomatch hsh.symm.trans h0⟩ hs
        | some e =>
          have hlt := hh (max e h) (by rw [hsh, ht]; rfl)
          have hex : e ≤ x := by
            by_contra hex
            refine hs ⟨hl, fun e' he' => ?_⟩
            obtain rfl := Option.some.inj (hsh.symm.trans he')
            exact lt_of_not_ge hex
          exact (lt_max_iff.mp hlt).resolve_left (not_lt_of_ge hex)
  · intro hx
    refine ⟨fun l hl => hx.elim (fun hs => hs.1 l hl) fun ht => hlo ht l hl, fun h hh => ?_⟩
    change laterEnd s.hi t.hi = some h at hh
    unfold laterEnd at hh
    split at hh
    · rename_i a b ha hb
      obtain rfl := Option.some.inj hh
      exact lt_max_iff.mpr (hx.imp (fun hs => hs.2 a ha) fun ht => ht.2 b hb)
    · cases hh

end Span

open Span

/-- The spans of a sorted list, from `last` on, those that touch merged. -/
def join (last : Span α) : List (Span α) → List (Span α)
  | [] => [last]
  | s :: spans =>
    if last.touches s then join ⟨last.lo, laterEnd last.hi s.hi⟩ spans
    else last :: join s spans

def merge : List (Span α) → List (Span α)
  | [] => []
  | s :: spans => join s spans

/-- Sorted by where the spans start. -/
def Sorted (spans : List (Span α)) : Prop := spans.Pairwise fun s t => s.startsBy t = true

theorem holds_join {last : Span α} {spans : List (Span α)} (h : Sorted (last :: spans)) (x : α) :
    (∃ s ∈ join last spans, s.Holds x) ↔ ∃ s ∈ last :: spans, s.Holds x := by
  induction spans generalizing last with
  | nil => rfl
  | cons s spans ih =>
    obtain ⟨hlast, hs⟩ := List.pairwise_cons.mp h
    have hls := hlast s List.mem_cons_self
    rw [join]
    split
    · rename_i htouch
      have hsorted : Sorted ((⟨last.lo, laterEnd last.hi s.hi⟩ : Span α) :: spans) := by
        refine List.pairwise_cons.mpr ⟨fun t ht => ?_, (List.pairwise_cons.mp hs).2⟩
        exact hlast t (List.mem_cons_of_mem _ ht)
      rw [ih hsorted, List.exists_mem_cons_iff, List.exists_mem_cons_iff, List.exists_mem_cons_iff,
        holds_merged hls htouch, or_assoc]
    · rw [List.exists_mem_cons_iff, ih hs, List.exists_mem_cons_iff (a := last)]

theorem startsBy_join {last : Span α} {spans : List (Span α)} (h : Sorted (last :: spans)) :
    ∀ s ∈ join last spans, last.startsBy s = true := by
  induction spans generalizing last with
  | nil =>
    intro s hs
    obtain rfl := List.mem_singleton.mp hs
    exact startsBy_refl s
  | cons s spans ih =>
    obtain ⟨hlast, hs⟩ := List.pairwise_cons.mp h
    have hls := hlast s List.mem_cons_self
    rw [join]
    intro t ht
    split at ht
    · have hsorted : Sorted ((⟨last.lo, laterEnd last.hi s.hi⟩ : Span α) :: spans) :=
        List.pairwise_cons.mpr ⟨fun t ht => hlast t (List.mem_cons_of_mem _ ht), (List.pairwise_cons.mp hs).2⟩
      exact ih hsorted t ht
    · rcases List.mem_cons.mp ht with rfl | ht
      · exact startsBy_refl t
      · exact startsBy_trans hls (ih hs t ht)

/-- Merged spans are in order and lie apart. -/
theorem apart_join {last : Span α} {spans : List (Span α)} (h : Sorted (last :: spans)) :
    (join last spans).Pairwise fun s t => s.startsBy t = true ∧ s.Apart t := by
  induction spans generalizing last with
  | nil => exact List.pairwise_singleton _ _
  | cons s spans ih =>
    obtain ⟨hlast, hs⟩ := List.pairwise_cons.mp h
    have hls := hlast s List.mem_cons_self
    rw [join]
    split
    · have hsorted : Sorted ((⟨last.lo, laterEnd last.hi s.hi⟩ : Span α) :: spans) :=
        List.pairwise_cons.mpr ⟨fun t ht => hlast t (List.mem_cons_of_mem _ ht), (List.pairwise_cons.mp hs).2⟩
      exact ih hsorted
    · rename_i htouch
      have hapart := not_touches_iff.mp (Bool.eq_false_iff.mpr htouch)
      refine List.pairwise_cons.mpr ⟨fun t ht => ?_, ih hs⟩
      have hst := startsBy_join hs t ht
      exact ⟨startsBy_trans hls hst, hapart.trans hst⟩

theorem holds_merge {spans : List (Span α)} (h : Sorted spans) (x : α) :
    (∃ s ∈ merge spans, s.Holds x) ↔ ∃ s ∈ spans, s.Holds x := by
  cases spans with
  | nil => rfl
  | cons s spans => exact holds_join h x

theorem apart_merge {spans : List (Span α)} (h : Sorted spans) :
    (merge spans).Pairwise fun s t => s.startsBy t = true ∧ s.Apart t := by
  cases spans with
  | nil => exact List.Pairwise.nil
  | cons s spans => exact apart_join h

end Spans
