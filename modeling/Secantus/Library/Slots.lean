/-
  A table of numbered slots, each free or taken: entries keep their number, and a new entry takes the
  first free slot (`add_spec`) or one that is given.
-/
import Mathlib.Data.List.Basic

namespace Secantus.Library

structure Slots (α : Type*) where
  entries : List (Option α)

namespace Slots

variable {α : Type*}

def empty : Slots α := ⟨[]⟩

def get (s : Slots α) (i : ℕ) : Option α := s.entries[i]?.join

def modify (s : Slots α) (i : ℕ) (f : α → α) : Slots α := ⟨s.entries.modify i (Option.map f)⟩

/-- Free a slot. -/
def clear (s : Slots α) (i : ℕ) : Slots α := ⟨s.entries.set i none⟩

/-- Take a slot that is there. -/
def put (s : Slots α) (i : ℕ) (a : α) : Slots α := ⟨s.entries.set i (some a)⟩

/-- A new slot at the end. -/
def push (s : Slots α) (a : α) : Slots α × ℕ := (⟨s.entries ++ [some a]⟩, s.entries.length)

/-- The first free slot, or a new one. -/
def add (s : Slots α) (a : α) : Slots α × ℕ :=
  match s.entries.findIdx? Option.isNone with
  | some i => (s.put i a, i)
  | none => s.push a

theorem get_modify (s : Slots α) (i j : ℕ) (f : α → α) :
    (s.modify i f).get j = if i = j then (s.get j).map f else s.get j := by
  unfold get modify
  rw [List.getElem?_modify]
  by_cases h : i = j
  · simp only [if_pos h]
    cases s.entries[j]? with
    | none => rfl
    | some a => cases a <;> rfl
  · simp only [if_neg h]
    cases s.entries[j]? <;> rfl

theorem map_get_modify {β : Type*} (s : Slots α) {f : α → α} {g : α → β} (h : ∀ a, g (f a) = g a) (i j : ℕ) :
    ((s.modify i f).get j).map g = (s.get j).map g := by
  rw [get_modify]
  split
  · rw [Option.map_map]
    exact congrArg (s.get j).map (funext h)
  · rfl

theorem get_clear (s : Slots α) (i j : ℕ) : (s.clear i).get j = if i = j then none else s.get j := by
  unfold get clear
  rw [List.getElem?_set]
  by_cases h : i = j
  · subst h
    by_cases hlt : i < s.entries.length
    · simp [hlt]
    · simp [hlt]
  · simp [h]

theorem get_put {s : Slots α} {i : ℕ} (h : i < s.entries.length) (a : α) (j : ℕ) :
    (s.put i a).get j = if i = j then some a else s.get j := by
  unfold get put
  rw [List.getElem?_set]
  by_cases hij : i = j
  · subst hij
    simp [h]
  · simp [hij]

theorem get_eq_none_of_le {s : Slots α} {i : ℕ} (h : s.entries.length ≤ i) : s.get i = none := by
  unfold get
  rw [List.getElem?_eq_none h]
  rfl

theorem get_push (s : Slots α) (a : α) (j : ℕ) :
    (s.push a).1.get j = if (s.push a).2 = j then some a else s.get j := by
  unfold push get
  rcases Nat.lt_trichotomy j s.entries.length with h | rfl | h
  · rw [List.getElem?_append_left h, if_neg (by omega)]
  · simp
  · rw [List.getElem?_eq_none (by simp; omega), if_neg (by omega), List.getElem?_eq_none (by omega)]

/-- A new entry takes a free slot, and no other slot changes. -/
theorem add_spec (s : Slots α) (a : α) : s.get (s.add a).2 = none ∧
    ∀ j, (s.add a).1.get j = if (s.add a).2 = j then some a else s.get j := by
  unfold add
  cases h : s.entries.findIdx? Option.isNone with
  | none => exact ⟨get_eq_none_of_le (Nat.le_refl _), get_push s a⟩
  | some i =>
    obtain ⟨hlt, hfree, -⟩ := List.findIdx?_eq_some_iff_getElem.mp h
    refine ⟨?_, get_put hlt a⟩
    show s.entries[i]?.join = none
    rw [List.getElem?_eq_getElem hlt, Option.isNone_iff_eq_none.mp hfree]
    rfl

end Slots

end Secantus.Library
