/-
  The places of a linear order: each element, places just before and just after it, and one place before all
  and one after all. An interval with open, closed or infinite ends is a closed interval of places, whatever
  the order has between two elements.
-/
import Mathlib.Data.Int.ConditionallyCompleteOrder
import Mathlib.Data.Prod.Lex
import Mathlib.Order.ConditionallyCompleteLattice.Basic
import Mathlib.Order.WithBot

namespace Secantus.Library

variable {α : Type*}

abbrev Place (α : Type*) := WithBot (WithTop (α ×ₗ ℤ))

namespace Place

/-- The place `k` steps after the element `x`. -/
def near (x : α) (k : ℤ) : Place α := ((toLex (x, k) : α ×ₗ ℤ) : WithTop (α ×ₗ ℤ))

theorem near_ne_bot (x : α) (k : ℤ) : near x k ≠ ⊥ := WithBot.coe_ne_bot

theorem near_ne_top (x : α) (k : ℤ) : near x k ≠ ⊤ := by
  unfold near
  rw [Ne, WithBot.coe_eq_top]
  exact WithTop.coe_ne_top

theorem near_inj {x y : α} {j k : ℤ} : near x j = near y k ↔ x = y ∧ j = k := by
  unfold near
  rw [WithBot.coe_inj, WithTop.coe_inj, toLex_inj, Prod.mk.injEq]

theorem before_lt_after [LinearOrder α] : (⊥ : Place α) < ⊤ := WithBot.bot_lt_coe _

/-- A place is before all, near an element, or after all. -/
theorem cases_near (p : Place α) : p = ⊥ ∨ p = ⊤ ∨ ∃ x k, p = near x k := by
  cases p using WithBot.recBotCoe with
  | bot => exact Or.inl rfl
  | coe p =>
    cases p using WithTop.recTopCoe with
    | top => exact Or.inr (Or.inl rfl)
    | coe p => exact Or.inr (Or.inr ⟨(ofLex p).1, (ofLex p).2, rfl⟩)

variable [LinearOrder α]

theorem near_le_near {x y : α} {j k : ℤ} : near x j ≤ near y k ↔ x < y ∨ x = y ∧ j ≤ k := by
  unfold near
  rw [WithBot.coe_le_coe, WithTop.coe_le_coe, Prod.Lex.toLex_le_toLex]

theorem near_lt_near {x y : α} {j k : ℤ} : near x j < near y k ↔ x < y ∨ x = y ∧ j < k := by
  unfold near
  rw [WithBot.coe_lt_coe, WithTop.coe_lt_coe, Prod.Lex.toLex_lt_toLex]

theorem le_near_pred_iff (p : Place α) (x : α) (k : ℤ) : p ≤ near x (k - 1) ↔ p < near x k := by
  rcases cases_near p with rfl | rfl | ⟨y, j, rfl⟩
  · exact ⟨fun _ => bot_lt_iff_ne_bot.mpr (near_ne_bot x k), fun _ => bot_le⟩
  · exact ⟨fun h => absurd (top_le_iff.mp h) (near_ne_top x _), fun h => absurd h not_top_lt⟩
  · rw [near_le_near, near_lt_near, Int.le_sub_one_iff]

theorem near_succ_le_iff (p : Place α) (x : α) (k : ℤ) : near x (k + 1) ≤ p ↔ near x k < p := by
  rcases cases_near p with rfl | rfl | ⟨y, j, rfl⟩
  · exact ⟨fun h => absurd (le_bot_iff.mp h) (near_ne_bot x _), fun h => absurd h not_lt_bot⟩
  · exact ⟨fun _ => lt_top_iff_ne_top.mpr (near_ne_top x k), fun _ => le_top⟩
  · rw [near_le_near, near_lt_near, Int.add_one_le_iff]

end Place

end Secantus.Library
