/-
  Filling the points of a grid that values pass: `base`, `base + step`, and so on, up to a bound if there is one.
  The values come in ascending order; `next` is the first point none of them has reached.

  `advance` is what one value does: it fills the points below it, and takes the point it stands on. After any values
  the points filled are those before `next` that no value stands on (`Filled.advance`).
-/
import Mathlib.Data.List.Nodup
import Mathlib.Data.List.Range
import Mathlib.Tactic.Linarith
import Mathlib.Tactic.Ring

namespace Secantus.Library

/-! ## Points -/

/-- A point of the grid. -/
def OnGrid (base step v : ℤ) : Prop := ∃ k : ℕ, v = base + step * k

/-- `next`, `next + step`, … below `max`. -/
def pointsBelow (step next max : ℤ) : List ℤ :=
  (List.range ((max - next + step - 1) / step).toNat).map fun k : ℕ => next + step * k

/-- The point after those below `max`. -/
def pointAfter (step next max : ℤ) : ℤ := next + step * (pointsBelow step next max).length

variable {base step next max v w x : ℤ}

theorem onGrid_self (base step : ℤ) : OnGrid base step base := ⟨0, by simp⟩

theorem OnGrid.add (h : OnGrid base step next) (k : ℕ) : OnGrid base step (next + step * k) := by
  obtain ⟨m, rfl⟩ := h
  exact ⟨m + k, by push_cast; ring⟩

theorem OnGrid.base_le (hstep : 0 < step) (h : OnGrid base step v) : base ≤ v := by
  obtain ⟨k, rfl⟩ := h
  have : 0 ≤ step * (k : ℤ) := by positivity
  omega

/-- Points less than a step apart, in this order, are in that order. -/
theorem OnGrid.le_of_lt_add (hstep : 0 < step) (hv : OnGrid base step v) (hw : OnGrid base step w)
    (h : v < w + step) : v ≤ w := by
  obtain ⟨k, rfl⟩ := hv
  obtain ⟨m, rfl⟩ := hw
  have hlt : step * (k : ℤ) < step * ((m : ℤ) + 1) := by linarith
  have hkm : (k : ℤ) < m + 1 := lt_of_mul_lt_mul_left hlt hstep.le
  have hle : step * (k : ℤ) ≤ step * m := mul_le_mul_of_nonneg_left (by omega) hstep.le
  omega

/-- A point at or after another is some steps after it. -/
theorem OnGrid.exists_add (hstep : 0 < step) (hv : OnGrid base step v) (hw : OnGrid base step w) (h : w ≤ v) :
    ∃ k : ℕ, v = w + step * k := by
  obtain ⟨k, rfl⟩ := hv
  obtain ⟨m, rfl⟩ := hw
  have hle : step * (m : ℤ) ≤ step * k := by linarith
  have hmk : (m : ℤ) ≤ k := le_of_mul_le_mul_left hle hstep
  exact ⟨k - m, by
    rw [Nat.cast_sub (by exact_mod_cast hmk)]
    ring⟩

/-! ## The points below a bound -/

theorem lt_count_iff (hstep : 0 < step) (k : ℕ) :
    k < ((max - next + step - 1) / step).toNat ↔ next + step * k < max := by
  rw [Int.lt_toNat, ← Int.add_one_le_iff, Int.le_ediv_iff_mul_le hstep]
  constructor
  · intro h
    linarith
  · intro h
    linarith

theorem mem_pointsBelow (hstep : 0 < step) : v ∈ pointsBelow step next max ↔ (∃ k : ℕ, v = next + step * k) ∧ v < max := by
  unfold pointsBelow
  rw [List.mem_map]
  constructor
  · rintro ⟨k, hk, rfl⟩
    exact ⟨⟨k, rfl⟩, (lt_count_iff hstep k).mp (List.mem_range.mp hk)⟩
  · rintro ⟨⟨k, rfl⟩, hlt⟩
    exact ⟨k, List.mem_range.mpr ((lt_count_iff hstep k).mpr hlt), rfl⟩

theorem nodup_pointsBelow (hstep : 0 < step) (next max : ℤ) : (pointsBelow step next max).Nodup := by
  refine List.nodup_range.map fun a b hab => ?_
  have h : step * (a : ℤ) = step * b := by simpa using hab
  exact_mod_cast mul_left_cancel₀ hstep.ne' h

theorem pointsBelow_of_le (hstep : 0 < step) (h : max ≤ next) : pointsBelow step next max = [] := by
  rw [List.eq_nil_iff_forall_not_mem]
  intro v hv
  obtain ⟨⟨k, rfl⟩, hlt⟩ := (mem_pointsBelow hstep).mp hv
  have : 0 ≤ step * (k : ℤ) := by positivity
  omega

theorem pointsBelow_of_lt (hstep : 0 < step) (h : next < max) :
    pointsBelow step next max = next :: pointsBelow step (next + step) max := by
  unfold pointsBelow
  have hcount : ((max - next + step - 1) / step).toNat = ((max - (next + step) + step - 1) / step).toNat + 1 := by
    have hdiv : (max - next + step - 1) / step = (max - (next + step) + step - 1) / step + 1 := by
      rw [← Int.add_mul_ediv_right _ 1 hstep.ne']
      congr 1
      ring
    have hpos : 0 ≤ (max - (next + step) + step - 1) / step := Int.ediv_nonneg (by omega) hstep.le
    omega
  rw [hcount, List.range_succ_eq_map, List.map_cons, List.map_map]
  congr 1
  · simp
  · refine List.map_congr_left fun k _ => ?_
    simp only [Function.comp_apply]
    push_cast
    ring

theorem pointAfter_of_le (hstep : 0 < step) (h : max ≤ next) : pointAfter step next max = next := by
  rw [pointAfter, pointsBelow_of_le hstep h]
  simp

theorem pointAfter_of_lt (hstep : 0 < step) (h : next < max) :
    pointAfter step next max = pointAfter step (next + step) max := by
  rw [pointAfter, pointAfter, pointsBelow_of_lt hstep h, List.length_cons]
  push_cast
  ring

theorem le_pointAfter (hstep : 0 < step) (next max : ℤ) : max ≤ pointAfter step next max := by
  by_contra hlt
  have hmem : (pointsBelow step next max).length < ((max - next + step - 1) / step).toNat :=
    (lt_count_iff hstep _).mpr (not_le.mp hlt)
  unfold pointsBelow at hmem
  simp at hmem

theorem next_le_pointAfter (hstep : 0 < step) (next max : ℤ) : next ≤ pointAfter step next max := by
  have : 0 ≤ step * ((pointsBelow step next max).length : ℤ) := by positivity
  unfold pointAfter
  omega

theorem pointAfter_lt (hstep : 0 < step) (h : next < max) : pointAfter step next max < max + step := by
  have hlen : (pointsBelow step next max).length = ((max - next + step - 1) / step).toNat := by simp [pointsBelow]
  obtain ⟨k, hk⟩ : ∃ k, (pointsBelow step next max).length = k + 1 := by
    rw [pointsBelow_of_lt hstep h]
    exact ⟨_, List.length_cons⟩
  have hlt : next + step * k < max := (lt_count_iff hstep k).mp (by omega)
  unfold pointAfter
  rw [hk]
  push_cast
  linarith

theorem add_le_pointAfter (hstep : 0 < step) (h : next < max) : next + step ≤ pointAfter step next max := by
  rw [pointAfter_of_lt hstep h]
  exact next_le_pointAfter hstep _ _

/-- A point is before the one after those below `max` exactly when it is one of them or before `next`. -/
theorem lt_pointAfter_iff (hstep : 0 < step) (hnext : OnGrid base step next) (hv : OnGrid base step v) :
    v < pointAfter step next max ↔ v < next ∨ v ∈ pointsBelow step next max := by
  constructor
  · intro h
    by_cases hlt : v < next
    · exact Or.inl hlt
    · obtain ⟨k, rfl⟩ := hv.exists_add hstep hnext (not_lt.mp hlt)
      refine Or.inr ((mem_pointsBelow hstep).mpr ⟨⟨k, rfl⟩, ?_⟩)
      have hk : step * (k : ℤ) < step * (pointsBelow step next max).length := by
        unfold pointAfter at h
        linarith
      have hlen : (k : ℤ) < (pointsBelow step next max).length := lt_of_mul_lt_mul_left hk hstep.le
      have hk' : k < ((max - next + step - 1) / step).toNat := by
        have hn : k < (pointsBelow step next max).length := by exact_mod_cast hlen
        simpa [pointsBelow] using hn
      exact (lt_count_iff hstep k).mp hk'
  · rintro (h | h)
    · exact h.trans_le (next_le_pointAfter hstep next max)
    · exact ((mem_pointsBelow hstep).mp h).2.trans_le (le_pointAfter hstep next max)

/-! ## Filling -/

/-- Before the bound, if there is one. -/
def Inside (hi : Option ℤ) (v : ℤ) : Prop := ∀ h, hi = some h → v < h

instance (hi : Option ℤ) (v : ℤ) : Decidable (Inside hi v) :=
  match hi with
  | none => .isTrue fun _ h => nomatch h
  | some h => decidable_of_iff (v < h) ⟨fun hlt _ heq => Option.some.inj heq ▸ hlt, fun hin => hin h rfl⟩

/-- Where the points below `x` end. -/
def fillEnd (hi : Option ℤ) (x : ℤ) : ℤ :=
  match hi with
  | none => x
  | some h => min h x

/-- What a value does: the next point, and the points it fills. -/
def advance (hi : Option ℤ) (step next x : ℤ) : ℤ × List ℤ :=
  if Inside hi next ∧ next < x then
    let after := pointAfter step next (fillEnd hi x)
    (if x = after then after + step else after, pointsBelow step next (fillEnd hi x))
  else (if x = next then next + step else next, [])

/-- The points `gs` filled are those before `next` that none of the values stands on, and no value inside the bound
    is at `next` or after it. -/
structure Filled (hi : Option ℤ) (base step next : ℤ) (vs gs : List ℤ) : Prop where
  grid : OnGrid base step next
  seen : ∀ x ∈ vs, Inside hi x → x < next
  mem_iff : ∀ v, v ∈ gs ↔ OnGrid base step v ∧ v < next ∧ Inside hi v ∧ v ∉ vs
  nodup : gs.Nodup

variable {hi : Option ℤ} {vs gs : List ℤ}

theorem lt_fillEnd_iff : v < fillEnd hi x ↔ v < x ∧ Inside hi v := by
  cases hi with
  | none => simp [fillEnd, Inside]
  | some h => simp [fillEnd, Inside, and_comm]

theorem fillEnd_le (hi : Option ℤ) (x : ℤ) : fillEnd hi x ≤ x := by
  cases hi with
  | none => exact le_refl x
  | some h => exact min_le_right h x

theorem inside_of_le (hin : Inside hi v) (h : w ≤ v) : Inside hi w := fun b hb => h.trans_lt (hin b hb)

/-- Nothing seen, nothing filled. -/
theorem filled_nil (hi : Option ℤ) (hstep : 0 < step) (base : ℤ) : Filled hi base step base [] [] where
  grid := onGrid_self base step
  seen := fun _ hx => nomatch hx
  mem_iff := by
    intro v
    refine iff_of_false List.not_mem_nil fun ⟨hv, hlt, _⟩ => ?_
    have := hv.base_le hstep
    omega
  nodup := List.nodup_nil

/-- A value before `next`, or with `next` out of bounds. -/
theorem Filled.skip (h : Filled hi base step next vs gs) (hx : x < next ∨ ¬Inside hi next) (hgs : x ∉ gs) :
    Filled hi base step next (vs ++ [x]) gs where
  grid := h.grid
  seen := by
    intro y hy hin
    rcases List.mem_append.mp hy with hy | hy
    · exact h.seen y hy hin
    · obtain rfl := List.mem_singleton.mp hy
      rcases hx with hx | hx
      · exact hx
      · exact not_le.mp fun hle => hx (inside_of_le hin hle)
  mem_iff := by
    intro v
    rw [h.mem_iff v, List.mem_append, List.mem_singleton, not_or]
    constructor
    · rintro ⟨hv, hlt, hin, hvs⟩
      refine ⟨hv, hlt, hin, hvs, ?_⟩
      rintro rfl
      exact hgs ((h.mem_iff v).mpr ⟨hv, hlt, hin, hvs⟩)
    · rintro ⟨hv, hlt, hin, hvs, -⟩
      exact ⟨hv, hlt, hin, hvs⟩
  nodup := h.nodup

/-- A value at `next`. -/
theorem Filled.hit (hstep : 0 < step) (h : Filled hi base step next vs gs) :
    Filled hi base step (next + step) (vs ++ [next]) gs where
  grid := by simpa using h.grid.add 1
  seen := by
    intro y hy hin
    rcases List.mem_append.mp hy with hy | hy
    · have := h.seen y hy hin
      omega
    · obtain rfl := List.mem_singleton.mp hy
      omega
  mem_iff := by
    intro v
    rw [h.mem_iff v, List.mem_append, List.mem_singleton, not_or]
    constructor
    · rintro ⟨hv, hlt, hin, hvs⟩
      exact ⟨hv, by omega, hin, hvs, hlt.ne⟩
    · rintro ⟨hv, hlt, hin, hvs, hne⟩
      exact ⟨hv, lt_of_le_of_ne (hv.le_of_lt_add hstep h.grid hlt) hne, hin, hvs⟩
  nodup := h.nodup

/-- The points below `x` filled. -/
theorem Filled.fill (hstep : 0 < step) (h : Filled hi base step next vs gs) (x : ℤ) :
    Filled hi base step (pointAfter step next (fillEnd hi x)) vs (gs ++ pointsBelow step next (fillEnd hi x)) where
  grid := h.grid.add _
  seen := fun y hy hin => (h.seen y hy hin).trans_le (next_le_pointAfter hstep next _)
  mem_iff := by
    intro v
    rw [List.mem_append, h.mem_iff v]
    constructor
    · rintro (⟨hv, hlt, hin, hvs⟩ | hv)
      · exact ⟨hv, hlt.trans_le (next_le_pointAfter hstep next _), hin, hvs⟩
      · obtain ⟨⟨k, rfl⟩, hlt⟩ := (mem_pointsBelow hstep).mp hv
        have hin := (lt_fillEnd_iff.mp hlt).2
        refine ⟨h.grid.add k, hlt.trans_le (le_pointAfter hstep next _), hin, fun hvs => ?_⟩
        have hseen := h.seen _ hvs hin
        have : 0 ≤ step * (k : ℤ) := by positivity
        omega
    · rintro ⟨hv, hlt, hin, hvs⟩
      rcases (lt_pointAfter_iff hstep h.grid hv).mp hlt with hlt | hmem
      · exact Or.inl ⟨hv, hlt, hin, hvs⟩
      · exact Or.inr hmem
  nodup := by
    refine List.nodup_append.mpr ⟨h.nodup, nodup_pointsBelow hstep next _, ?_⟩
    rintro a ha b hb rfl
    have hlt := ((h.mem_iff a).mp ha).2.1
    obtain ⟨⟨k, rfl⟩, -⟩ := (mem_pointsBelow hstep).mp hb
    have : 0 ≤ step * (k : ℤ) := by positivity
    omega

/-- What one value does keeps the points filled right. -/
theorem Filled.advance (hstep : 0 < step) (h : Filled hi base step next vs gs) (hgs : x ∉ gs) :
    Filled hi base step (advance hi step next x).1 (vs ++ [x]) (gs ++ (advance hi step next x).2) := by
  unfold Library.advance
  by_cases hfill : Inside hi next ∧ next < x
  · rw [if_pos hfill]
    have hfilled := h.fill hstep x
    by_cases hx : x = pointAfter step next (fillEnd hi x)
    · simp only [if_pos hx]
      have hhit := hfilled.hit hstep
      rwa [← hx] at hhit ⊢
    · simp only [if_neg hx]
      refine hfilled.skip ?_ ?_
      · by_cases hin : Inside hi (pointAfter step next (fillEnd hi x))
        · refine Or.inl (lt_of_le_of_ne (not_lt.mp fun hlt => ?_) hx)
          exact absurd (lt_fillEnd_iff.mpr ⟨hlt, hin⟩) (not_lt.mpr (le_pointAfter hstep next _))
        · exact Or.inr hin
      · rw [List.mem_append, not_or]
        refine ⟨hgs, fun hmem => ?_⟩
        exact absurd (lt_fillEnd_iff.mp ((mem_pointsBelow hstep).mp hmem).2).1 (lt_irrefl x)
  · rw [if_neg hfill, List.append_nil]
    by_cases hx : x = next
    · rw [if_pos hx, hx]
      exact h.hit hstep
    · rw [if_neg hx]
      refine h.skip ?_ hgs
      by_cases hin : Inside hi next
      · exact Or.inl (lt_of_le_of_ne (not_lt.mp fun hlt => hfill ⟨hin, hlt⟩) hx)
      · exact Or.inr hin

/-- What a value fills is before it. -/
theorem lt_of_mem_advance (hstep : 0 < step) (h : v ∈ (advance hi step next x).2) : v < x := by
  unfold Library.advance at h
  split at h
  · exact (lt_fillEnd_iff.mp ((mem_pointsBelow hstep).mp h).2).1
  · cases h

/-- The rest of the grid filled to the bound. -/
theorem Filled.finish {b : ℤ} (hstep : 0 < step) (h : Filled (some b) base step next vs gs) :
    (gs ++ pointsBelow step next b).Nodup ∧
      ∀ v, v ∈ gs ++ pointsBelow step next b ↔ OnGrid base step v ∧ v < b ∧ v ∉ vs := by
  have hend : fillEnd (some b) b = b := min_self b
  have hfilled := h.fill hstep b
  rw [hend] at hfilled
  refine ⟨hfilled.nodup, fun v => (hfilled.mem_iff v).trans ?_⟩
  constructor
  · rintro ⟨hv, -, hin, hvs⟩
    exact ⟨hv, hin b rfl, hvs⟩
  · rintro ⟨hv, hlt, hvs⟩
    exact ⟨hv, hlt.trans_le (le_pointAfter hstep next b), fun c hc => Option.some.inj hc ▸ hlt, hvs⟩

end Secantus.Library
