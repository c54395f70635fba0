/-
  Computations that may fail, in `Except`: taking a bind apart.
-/
import Mathlib.Data.List.Forall2

namespace Outcome

universe u

variable {ε : Type*} {α β : Type u}

/-- A bind succeeds when its first part does and the rest does on that result. -/
theorem bind_eq_ok {x : Except ε α} {f : α → Except ε β} {r : β} :
    (x >>= f) = .ok r ↔ ∃ a, x = .ok a ∧ f a = .ok r := by
  cases x with
  | error e => simp [bind, Except.bind]
  | ok a => simp [bind, Except.bind]

/-- A bind does not fail with `e` when neither part does. -/
theorem bind_ne_error {x : Except ε α} {f : α → Except ε β} {e : ε} (hx : x ≠ .error e)
    (hf : ∀ a, x = .ok a → f a ≠ .error e) : (x >>= f) ≠ .error e := by
  cases x with
  | error e' => exact fun h => hx (by cases h; rfl)
  | ok a => exact hf a rfl

/-- Where each of a list's computations succeeds, so does the list of them. -/
theorem mapM_eq_ok {γ : Type*} {f : γ → Except ε α} {P : γ → α → Prop} :
    ∀ {l : List γ}, (∀ x ∈ l, ∃ y, f x = .ok y ∧ P x y) → ∃ ys, l.mapM f = .ok ys ∧ List.Forall₂ P l ys
  | [], _ => ⟨[], rfl, List.Forall₂.nil⟩
  | x :: l, h => by
    obtain ⟨y, hy, hP⟩ := h x List.mem_cons_self
    obtain ⟨ys, hys, hPs⟩ := mapM_eq_ok fun x' hx' => h x' (List.mem_cons_of_mem _ hx')
    refine ⟨y :: ys, ?_, List.Forall₂.cons hP hPs⟩
    rw [List.mapM_cons, hy, hys]
    rfl

/-- Where the list of them succeeds, so did each of the computations. -/
theorem forall₂_of_mapM {γ : Type*} {f : γ → Except ε α} :
    ∀ {l : List γ} {ys : List α}, l.mapM f = .ok ys → List.Forall₂ (fun x y => f x = .ok y) l ys
  | [], ys, h => by
    obtain rfl : [] = ys := Except.ok.inj h
    exact List.Forall₂.nil
  | x :: l, ys, h => by
    rw [List.mapM_cons] at h
    obtain ⟨y, hy, h⟩ := bind_eq_ok.mp h
    obtain ⟨ys', hys, h⟩ := bind_eq_ok.mp h
    obtain rfl : y :: ys' = ys := Except.ok.inj h
    exact List.Forall₂.cons hy (forall₂_of_mapM hys)

/-- A bind fails where its first part does, or the rest on its result. -/
theorem bind_eq_error {x : Except ε α} {f : α → Except ε β} {e : ε} (h : (x >>= f) = .error e) :
    x = .error e ∨ ∃ a, x = .ok a ∧ f a = .error e := by
  cases x with
  | error e' => exact .inl (by cases h; rfl)
  | ok a => exact .inr ⟨a, rfl, h⟩

/-- A list of computations fails where one of them does. -/
theorem mapM_eq_error {γ : Type*} {f : γ → Except ε α} {e : ε} :
    ∀ {l : List γ}, l.mapM f = .error e → ∃ x ∈ l, f x = .error e
  | [], h => nomatch h
  | x :: l, h => by
    rw [List.mapM_cons] at h
    rcases bind_eq_error h with hx | ⟨y, -, h⟩
    · exact ⟨x, List.mem_cons_self, hx⟩
    · rcases bind_eq_error h with hl | ⟨ys, -, h⟩
      · obtain ⟨x', hx', he⟩ := mapM_eq_error hl
        exact ⟨x', List.mem_cons_of_mem _ hx', he⟩
      · cases h

/-- The list of computations that succeed with these results. -/
theorem mapM_of_forall₂ {γ : Type*} {f : γ → Except ε α} {l : List γ} {ys : List α}
    (h : List.Forall₂ (fun x y => f x = .ok y) l ys) : l.mapM f = .ok ys := by
  induction h with
  | nil => rfl
  | cons hxy _ ih =>
    rw [List.mapM_cons, hxy, ih]
    rfl

/-- What holds of one of two lists' entries, related one to one, holds of one of the other's. -/
theorem exists_mem_of_forall₂ {γ δ : Type*} {R : γ → δ → Prop} {P : γ → Prop} {Q : δ → Prop}
    (hPQ : ∀ x y, R x y → (P x ↔ Q y)) {l : List γ} {l' : List δ} (h : List.Forall₂ R l l') :
    (∃ x ∈ l, P x) ↔ ∃ y ∈ l', Q y := by
  induction h with
  | nil => simp
  | cons hxy _ ih => simp only [List.mem_cons, exists_eq_or_imp, hPQ _ _ hxy, ih]

/-- What a relation says of the second of two entries holds of all the second list's. -/
theorem forall_mem_of_forall₂ {γ δ : Type*} {R : γ → δ → Prop} {Q : δ → Prop} (hQ : ∀ x y, R x y → Q y)
    {l : List γ} {l' : List δ} (h : List.Forall₂ R l l') : ∀ y ∈ l', Q y := by
  induction h with
  | nil => simp
  | cons hxy _ ih =>
    intro y hy
    rcases List.mem_cons.mp hy with rfl | hy
    · exact hQ _ _ hxy
    · exact ih y hy

end Outcome
