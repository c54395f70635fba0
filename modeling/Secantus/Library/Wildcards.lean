/-
  Wildcard patterns: letters, `one` for any letter and `many` for any word.

  `Generates` is the language of a pattern. A matcher that reads a pattern from the left comes to its end with letters
  left over exactly when the pattern generates a proper prefix of the word (`leaves_iff`); `Reaches` is the same for a
  matcher that, behind a `many`, reads on past the wildcards that follow before it looks at the word.
-/
import Mathlib.Data.List.Infix

namespace Secantus.Library.Wildcards

inductive Token (α : Type*) where
  | lit (c : α)
  | one
  | many
  deriving DecidableEq

variable {α β : Type*}

def Token.isWild : Token α → Bool
  | .lit _ => false
  | _ => true

/-- The words of a pattern. -/
def Generates : List (Token α) → List α → Prop
  | [], s => s = []
  | .lit c :: ts, s => ∃ r, s = c :: r ∧ Generates ts r
  | .one :: ts, s => ∃ c r, s = c :: r ∧ Generates ts r
  | .many :: ts, s => ∃ r, r <:+ s ∧ Generates ts r

/-- The words of which a pattern leaves something. -/
def Leaves : List (Token α) → List α → Prop
  | [], s => s ≠ []
  | .lit c :: ts, s => ∃ r, s = c :: r ∧ Leaves ts r
  | .one :: ts, s => ∃ c r, s = c :: r ∧ Leaves ts r
  | .many :: ts, s => ∃ r, r <:+ s ∧ Leaves ts r

/-- The words on which a matcher comes to the end of the pattern: with letters left, or from a `many` that it met
with letters left, once the wildcards behind it find enough of them. -/
def Reaches : List (Token α) → List α → Prop
  | [], s => s ≠ []
  | .lit c :: ts, s => ∃ r, s = c :: r ∧ Reaches ts r
  | .one :: ts, s => ∃ c r, s = c :: r ∧ Reaches ts r
  | .many :: ts, s =>
    (∃ r, r <:+ s ∧ Reaches ts r) ∨ s ≠ [] ∧ ts.all Token.isWild = true ∧ ∃ r, r <:+ s ∧ Generates ts r

/-! ## Words left over -/

/-- A pattern leaves something of a word exactly when it generates a proper prefix of it. -/
theorem leaves_iff (ts : List (Token α)) (s : List α) :
    Leaves ts s ↔ ∃ u v, s = u ++ v ∧ v ≠ [] ∧ Generates ts u := by
  induction ts generalizing s with
  | nil =>
    constructor
    · exact fun h => ⟨[], s, rfl, h, rfl⟩
    · rintro ⟨u, v, rfl, hv, rfl⟩
      exact hv
  | cons t ts ih =>
    cases t with
    | lit c =>
      constructor
      · rintro ⟨r, rfl, hr⟩
        obtain ⟨u, v, rfl, hv, hu⟩ := (ih r).mp hr
        exact ⟨c :: u, v, rfl, hv, u, rfl, hu⟩
      · rintro ⟨_, v, rfl, hv, u, rfl, hu⟩
        exact ⟨u ++ v, rfl, (ih _).mpr ⟨u, v, rfl, hv, hu⟩⟩
    | one =>
      constructor
      · rintro ⟨c, r, rfl, hr⟩
        obtain ⟨u, v, rfl, hv, hu⟩ := (ih r).mp hr
        exact ⟨c :: u, v, rfl, hv, c, u, rfl, hu⟩
      · rintro ⟨_, v, rfl, hv, c, u, rfl, hu⟩
        exact ⟨c, u ++ v, rfl, (ih _).mpr ⟨u, v, rfl, hv, hu⟩⟩
    | many =>
      constructor
      · rintro ⟨r, ⟨w, rfl⟩, hr⟩
        obtain ⟨u, v, rfl, hv, hu⟩ := (ih r).mp hr
        exact ⟨w ++ u, v, (List.append_assoc w u v).symm, hv, u, List.suffix_append w u, hu⟩
      · rintro ⟨_, v, rfl, hv, u, ⟨w, rfl⟩, hu⟩
        refine ⟨u ++ v, ?_, (ih _).mpr ⟨u, v, rfl, hv, hu⟩⟩
        rw [List.append_assoc]
        exact List.suffix_append w (u ++ v)

/-- Where letters are left over, the matcher comes to the end. -/
theorem Leaves.reaches {ts : List (Token α)} {s : List α} (h : Leaves ts s) : Reaches ts s := by
  induction ts generalizing s with
  | nil => exact h
  | cons t ts ih =>
    cases t with
    | lit c =>
      obtain ⟨r, hs, hr⟩ := h
      exact ⟨r, hs, ih hr⟩
    | one =>
      obtain ⟨c, r, hs, hr⟩ := h
      exact ⟨c, r, hs, ih hr⟩
    | many =>
      obtain ⟨r, hs, hr⟩ := h
      exact .inl ⟨r, hs, ih hr⟩

/-! ## Wildcards in a row -/

section Row

variable {P : List α → Prop}

/-- The words some end of which begins with a letter, past which `P` holds. -/
theorem exists_suffix_one (s : List α) :
    (∃ r, r <:+ s ∧ ∃ c r', r = c :: r' ∧ P r') ↔ ∃ c s', s = c :: s' ∧ ∃ r, r <:+ s' ∧ P r := by
  constructor
  · rintro ⟨_, hr, c, r', rfl, hP⟩
    obtain ⟨w, rfl⟩ := hr
    cases w with
    | nil => exact ⟨c, r', rfl, r', List.suffix_refl r', hP⟩
    | cons a w =>
      refine ⟨a, w ++ c :: r', rfl, r', ?_, hP⟩
      exact (List.suffix_cons c r').trans (List.suffix_append w _)
  · rintro ⟨c, s', rfl, r, ⟨w, rfl⟩, hP⟩
    obtain ⟨b, hb⟩ : ∃ b, b :: r <:+ c :: (w ++ r) := by
      rcases List.eq_nil_or_concat w with rfl | ⟨w', b, rfl⟩
      · exact ⟨c, List.suffix_refl _⟩
      · refine ⟨b, c :: w', ?_⟩
        simp
    exact ⟨b :: r, hb, b, r, rfl, hP⟩

/-- An end of a word is an end of its rest, or the word. -/
theorem exists_suffix_cons (c : α) (s : List α) :
    (∃ r, r <:+ c :: s ∧ P r) ↔ P (c :: s) ∨ ∃ r, r <:+ s ∧ P r := by
  simp only [List.suffix_cons_iff, or_and_right, exists_or, exists_eq_left]

end Row

/-! ## Letters renamed -/

def Token.map (f : α → β) : Token α → Token β
  | .lit c => .lit (f c)
  | .one => .one
  | .many => .many

section Renamed

variable {f : α → β} {P : α → Prop} (hf : ∀ a b, P a → P b → f a = f b → a = b)

include hf

/-- The letters of a pattern are among those on which `f` is injective. -/
def Spelled (P : α → Prop) (ts : List (Token α)) : Prop := ∀ c, Token.lit c ∈ ts → P c

omit hf in
theorem Spelled.tail {P : α → Prop} {t : Token α} {ts : List (Token α)} (h : Spelled P (t :: ts)) : Spelled P ts :=
  fun c hc => h c (List.mem_cons_of_mem t hc)

/-- Renaming the letters one to one changes nothing of what a pattern generates. -/
theorem generates_map {ts : List (Token α)} (hts : Spelled P ts) {s : List α} (hs : ∀ c ∈ s, P c) :
    Generates (ts.map (Token.map f)) (s.map f) ↔ Generates ts s := by
  induction ts generalizing s with
  | nil => exact List.map_eq_nil_iff
  | cons t ts ih =>
    cases t with
    | lit c =>
      constructor
      · rintro ⟨r, hr, hg⟩
        obtain ⟨a, s', rfl, ha, rfl⟩ := List.map_eq_cons_iff.mp hr
        have hac := hf a c (hs a List.mem_cons_self) (hts c List.mem_cons_self) ha
        exact ⟨s', by rw [hac], (ih hts.tail fun c hc => hs c (List.mem_cons_of_mem a hc)).mp hg⟩
      · rintro ⟨r, rfl, hg⟩
        exact ⟨r.map f, rfl, (ih hts.tail fun a ha => hs a (List.mem_cons_of_mem c ha)).mpr hg⟩
    | one =>
      constructor
      · rintro ⟨c, r, hr, hg⟩
        obtain ⟨a, s', rfl, -, rfl⟩ := List.map_eq_cons_iff.mp hr
        exact ⟨a, s', rfl, (ih hts.tail fun c hc => hs c (List.mem_cons_of_mem a hc)).mp hg⟩
      · rintro ⟨c, r, rfl, hg⟩
        exact ⟨f c, r.map f, rfl, (ih hts.tail fun a ha => hs a (List.mem_cons_of_mem c ha)).mpr hg⟩
    | many =>
      constructor
      · rintro ⟨r, hr, hg⟩
        obtain ⟨s', hs', rfl⟩ := List.suffix_map_iff.mp hr
        exact ⟨s', hs', (ih hts.tail fun c hc => hs c (hs'.subset hc)).mp hg⟩
      · rintro ⟨r, hr, hg⟩
        exact ⟨r.map f, hr.map f, (ih hts.tail fun c hc => hs c (hr.subset hc)).mpr hg⟩

end Renamed

end Secantus.Library.Wildcards
