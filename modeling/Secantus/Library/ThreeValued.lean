/-
  AND and OR in three-valued logic, as loops that stop early.

  A truth value is an `Option Bool`, `none` for NULL. An operand may raise. AND stops at the first
  FALSE and OR at the first TRUE, so an operand behind that one is never evaluated and cannot raise.
  `chain` is either loop, by the value it stops at, and `join` is the connective itself.

  * `chain_ok`: over operands that do not raise the loop is the connective;
  * `chain_eq_join_iff`: when a loop over operands some of which differ from given ones, but only
    where those are not decisive, still answers as the connective over the given ones.
-/
import Mathlib.Data.List.Basic
import Mathlib.Data.List.Forall2
import Mathlib.Tactic.Common

namespace Secantus.ThreeValued

variable {ε : Type} {stop : Bool} {acc : Option Bool}

/-- The loop of AND (`stop` is FALSE) and of OR (`stop` is TRUE): `acc` is the answer if no operand
    is `stop`. -/
def chain (stop : Bool) : Option Bool → List (Except ε (Option Bool)) → Except ε (Option Bool)
  | acc, [] => .ok acc
  | _, .error e :: _ => .error e
  | acc, .ok (some b) :: xs => if b = stop then .ok (some stop) else chain stop acc xs
  | _, .ok none :: xs => chain stop none xs

/-- The connective: `stop` when some operand is, else NULL when some operand is, else the other. -/
def join (stop : Bool) (vs : List (Option Bool)) : Option Bool :=
  if some stop ∈ vs then some stop else if none ∈ vs then none else some !stop

/-! ## The connective -/

theorem join_eq_stop_iff {vs : List (Option Bool)} : join stop vs = some stop ↔ some stop ∈ vs := by
  unfold join
  split_ifs <;> simp_all

theorem join_eq_none_iff {vs : List (Option Bool)} :
    join stop vs = none ↔ some stop ∉ vs ∧ none ∈ vs := by
  unfold join
  split_ifs <;> simp_all

theorem join_eq_not_iff {vs : List (Option Bool)} :
    join stop vs = some (!stop) ↔ some stop ∉ vs ∧ none ∉ vs := by
  unfold join
  split_ifs <;> simp_all

/-! ## The loop -/

/-- An operand that is not `stop` does not end the loop. -/
theorem chain_append {pre : List (Option Bool)} (h : some stop ∉ pre) (xs : List (Except ε (Option Bool))) :
    chain stop acc (pre.map .ok ++ xs) = chain stop (if none ∈ pre then none else acc) xs := by
  induction pre generalizing acc with
  | nil => rfl
  | cons v pre ih =>
    have hpre : some stop ∉ pre := fun hm => h (List.mem_cons_of_mem _ hm)
    cases v with
    | none =>
      simp only [List.map_cons, List.cons_append, chain, List.mem_cons, true_or, if_true]
      rw [ih hpre, ite_self]
    | some b =>
      have hb : b ≠ stop := by
        rintro rfl
        exact h List.mem_cons_self
      simp only [List.map_cons, List.cons_append, chain, if_neg hb, List.mem_cons, reduceCtorEq, false_or]
      exact ih hpre

theorem chain_stop {pre : List (Option Bool)} (h : some stop ∉ pre) (post : List (Except ε (Option Bool))) :
    chain stop acc (pre.map .ok ++ .ok (some stop) :: post) = .ok (some stop) := by
  rw [chain_append h]
  simp [chain]

theorem chain_error {pre : List (Option Bool)} (h : some stop ∉ pre) (e : ε)
    (post : List (Except ε (Option Bool))) :
    chain stop acc (pre.map .ok ++ .error e :: post) = .error e := by
  rw [chain_append h]
  rfl

theorem chain_through {vs : List (Option Bool)} (h : some stop ∉ vs) :
    chain (ε := ε) stop acc (vs.map .ok) = .ok (if none ∈ vs then none else acc) := by
  have h' : chain stop acc (vs.map .ok ++ []) = chain (ε := ε) stop (if none ∈ vs then none else acc) [] := chain_append h []
  rw [List.append_nil] at h'
  exact h'

/-- Over operands that do not raise the loop is the connective. -/
theorem chain_ok (vs : List (Option Bool)) :
    chain (ε := ε) stop (some !stop) (vs.map .ok) = .ok (join stop vs) := by
  by_cases hs : some stop ∈ vs
  · obtain ⟨pre, post, rfl, hpre⟩ := List.eq_append_cons_of_mem hs
    rw [List.map_append, List.map_cons, chain_stop hpre, join, if_pos hs]
  · rw [chain_through hs, join, if_neg hs]

/-- The operands up to the one that ends the loop, if one does. -/
theorem ends (stop : Bool) (xs : List (Except ε (Option Bool))) :
    (∃ (pre : List (Option Bool)) (post : List (Except ε (Option Bool))),
        xs = pre.map .ok ++ .ok (some stop) :: post ∧ some stop ∉ pre) ∨
      (∃ (pre : List (Option Bool)) (e : ε) (post : List (Except ε (Option Bool))),
        xs = pre.map .ok ++ .error e :: post ∧ some stop ∉ pre) ∨
      ∃ vs : List (Option Bool), xs = vs.map .ok ∧ some stop ∉ vs := by
  induction xs with
  | nil => exact .inr (.inr ⟨[], rfl, by simp⟩)
  | cons x xs ih =>
    cases x with
    | error e => exact .inr (.inl ⟨[], e, xs, rfl, by simp⟩)
    | ok v =>
      by_cases hv : v = some stop
      · exact .inl ⟨[], xs, by simp [hv], by simp⟩
      have hne : some stop ≠ v := fun h => hv h.symm
      obtain ⟨pre, post, rfl, hpre⟩ | ⟨pre, e, post, rfl, hpre⟩ | ⟨vs, rfl, hvs⟩ := ih
      · exact .inl ⟨v :: pre, post, rfl, by simp [hne, hpre]⟩
      · exact .inr (.inl ⟨v :: pre, e, post, rfl, by simp [hne, hpre]⟩)
      · exact .inr (.inr ⟨v :: vs, rfl, by simp [hne, hvs]⟩)

theorem mem_map_ok {vs : List (Option Bool)} {v : Option Bool} :
    Except.ok v ∈ vs.map (Except.ok (ε := ε)) ↔ v ∈ vs := by
  simp

/-- A truth value is the one the loop stops at, NULL, or the one it passes over. -/
theorem truth_cases (stop : Bool) (v : Option Bool) : v = some stop ∨ v = none ∨ v = some (!stop) := by
  cases v with
  | none => simp
  | some b => cases b <;> cases stop <;> simp

/-- The loop raises when an operand does and no `stop` stands before it. -/
theorem chain_error_iff {xs : List (Except ε (Option Bool))} :
    (∃ e, chain stop acc xs = .error e) ↔
      ∃ pre e post, xs = pre ++ .error e :: post ∧ .ok (some stop) ∉ pre := by
  constructor
  · rintro ⟨e, he⟩
    obtain ⟨pre, post, rfl, hpre⟩ | ⟨pre, e', post, rfl, hpre⟩ | ⟨vs, rfl, hvs⟩ := ends stop xs
    · rw [chain_stop hpre] at he
      cases he
    · exact ⟨_, e', post, rfl, fun h => hpre (mem_map_ok.mp h)⟩
    · rw [chain_through hvs] at he
      cases he
  · rintro ⟨pre, e, post, rfl, hpre⟩
    induction pre generalizing acc with
    | nil => exact ⟨e, rfl⟩
    | cons x pre ih =>
      have hrest : Except.ok (some stop) ∉ pre := fun h => hpre (List.mem_cons_of_mem _ h)
      cases x with
      | error e' => exact ⟨e', rfl⟩
      | ok v =>
        obtain rfl | rfl | rfl := truth_cases stop v
        · exact absurd List.mem_cons_self hpre
        · exact ih hrest
        · simpa [chain] using ih hrest

/-- The loop passes over every operand when each is the value it passes over. -/
theorem chain_not_iff {xs : List (Except ε (Option Bool))} :
    chain stop (some !stop) xs = .ok (some !stop) ↔ ∀ x ∈ xs, x = .ok (some !stop) := by
  obtain ⟨pre, post, rfl, hpre⟩ | ⟨pre, e, post, rfl, hpre⟩ | ⟨vs, rfl, hvs⟩ := ends stop xs
  · rw [chain_stop hpre]
    exact ⟨fun h => by simp at h, fun h => absurd (h (.ok (some stop)) (by simp)) (by simp)⟩
  · rw [chain_error hpre]
    exact ⟨nofun, fun h => absurd (h (.error e) (by simp)) (by simp)⟩
  · rw [chain_ok, Except.ok.injEq, join_eq_not_iff]
    simp only [List.mem_map, forall_exists_index, and_imp, forall_apply_eq_imp_iff₂, Except.ok.injEq]
    refine ⟨fun h v hv => ?_, fun h => ⟨hvs, fun hn => by simpa using h none hn⟩⟩
    obtain rfl | rfl | rfl := truth_cases stop v
    · exact absurd hv h.1
    · exact absurd hv h.2
    · rfl

/-- The loop ends at NULL when no operand ends it or raises and one is NULL. -/
theorem chain_none_iff {xs : List (Except ε (Option Bool))} :
    chain stop (some !stop) xs = .ok none ↔
      (∀ x ∈ xs, x = .ok (some !stop) ∨ x = .ok none) ∧ .ok none ∈ xs := by
  obtain ⟨pre, post, rfl, hpre⟩ | ⟨pre, e, post, rfl, hpre⟩ | ⟨vs, rfl, hvs⟩ := ends stop xs
  · rw [chain_stop hpre]
    exact ⟨fun h => by simp at h, fun h => absurd (h.1 (.ok (some stop)) (by simp)) (by simp)⟩
  · rw [chain_error hpre]
    exact ⟨nofun, fun h => absurd (h.1 (.error e) (by simp)) (by simp)⟩
  · rw [chain_ok, Except.ok.injEq, join_eq_none_iff, mem_map_ok]
    refine and_congr_left fun _ => ⟨fun h x hx => ?_, fun _ => hvs⟩
    obtain ⟨v, hv, rfl⟩ := List.mem_map.mp hx
    obtain rfl | rfl | rfl := truth_cases stop v
    · exact absurd hv h
    · exact .inr rfl
    · exact .inl rfl

/-! ## Rewriting the operands -/

theorem chain_cons_not (acc : Option Bool) (xs : List (Except ε (Option Bool))) :
    chain stop acc (.ok (some !stop) :: xs) = chain stop acc xs := by
  simp [chain]

/-- An operand both loops pass over may be dropped. -/
theorem chain_drop (acc : Option Bool) (xs ys : List (Except ε (Option Bool))) :
    chain stop acc (xs ++ .ok (some !stop) :: ys) = chain stop acc (xs ++ ys) := by
  induction xs generalizing acc with
  | nil => exact chain_cons_not acc ys
  | cons x xs ih =>
    cases x with
    | error e => rfl
    | ok v =>
      cases v with
      | none => exact ih none
      | some b =>
        simp only [List.cons_append, chain]
        rw [ih]

/-- A NULL operand may be taken out, if the loop then starts at NULL. -/
theorem chain_null {xs ys : List (Except ε (Option Bool))} {v : Option Bool}
    (h : chain stop acc (xs ++ .ok none :: ys) = .ok v) : chain stop none (xs ++ ys) = .ok v := by
  induction xs generalizing acc with
  | nil => exact h
  | cons x xs ih =>
    cases x with
    | error e => cases h
    | ok w =>
      cases w with
      | none => exact ih h
      | some b =>
        simp only [List.cons_append, chain] at h ⊢
        split_ifs at h ⊢
        · exact h
        · exact ih h

/-- The loop that starts at NULL is the loop with a NULL behind the others. -/
theorem chain_null_last (acc : Option Bool) (xs : List (Except ε (Option Bool))) :
    chain stop acc (xs ++ [.ok none]) = chain stop none xs := by
  induction xs generalizing acc with
  | nil => rfl
  | cons x xs ih =>
    cases x with
    | error e => rfl
    | ok w =>
      cases w with
      | none => exact ih none
      | some b =>
        simp only [List.cons_append, chain]
        rw [ih]

/-- A `stop` among the operands is the answer, if there is one. -/
theorem chain_decides {xs ys : List (Except ε (Option Bool))} {v : Option Bool}
    (h : chain stop acc (xs ++ .ok (some stop) :: ys) = .ok v) : v = some stop := by
  induction xs generalizing acc with
  | nil =>
    simp only [List.nil_append, chain, if_true, Except.ok.injEq] at h
    exact h.symm
  | cons x xs ih =>
    cases x with
    | error e => cases h
    | ok w =>
      cases w with
      | none => exact ih h
      | some b =>
        simp only [List.cons_append, chain] at h
        split_ifs at h
        · exact (Except.ok.inj h).symm
        · exact ih h

theorem chain_single {x : Except ε (Option Bool)} {v : Option Bool}
    (h : chain stop (some !stop) [x] = .ok v) : x = .ok v := by
  cases x with
  | error e => cases h
  | ok w =>
    obtain rfl | rfl | rfl := truth_cases stop w
    · simpa [chain] using h
    · exact h
    · simpa [chain] using h

/-- A loop within the same loop may be flattened into it. -/
theorem chain_flatten (acc : Option Bool) (xs ys zs : List (Except ε (Option Bool))) :
    chain stop acc (xs ++ chain stop (some !stop) ys :: zs) = chain stop acc (xs ++ (ys ++ zs)) := by
  have hinner (acc' : Option Bool) :
      chain stop acc' (chain stop (some !stop) ys :: zs) = chain stop acc' (ys ++ zs) := by
    obtain ⟨pre, post, rfl, hpre⟩ | ⟨pre, e, post, rfl, hpre⟩ | ⟨vs, rfl, hvs⟩ := ends stop ys
    · rw [chain_stop hpre, List.append_assoc, List.cons_append, chain_stop hpre]
      simp [chain]
    · rw [chain_error hpre, List.append_assoc, List.cons_append, chain_error hpre]
      rfl
    · rw [chain_through hvs, chain_append hvs]
      split_ifs
      · rfl
      · exact chain_cons_not acc' zs
  induction xs generalizing acc with
  | nil => exact hinner acc
  | cons x xs ih =>
    cases x with
    | error e => rfl
    | ok w =>
      cases w with
      | none => exact ih none
      | some b =>
        simp only [List.cons_append, chain]
        rw [ih]

/-- `x'` answers what `x` does, when `x` answers. -/
def Refines {β : Type} (x x' : Except ε β) : Prop := ∀ v, x = .ok v → x' = .ok v

theorem chain_refines {xs ys : List (Except ε (Option Bool))} (h : List.Forall₂ Refines xs ys)
    (acc : Option Bool) : Refines (chain stop acc xs) (chain stop acc ys) := by
  induction h generalizing acc with
  | nil => exact fun v hv => hv
  | @cons x y xs ys hxy _ ih =>
    intro v hv
    cases x with
    | error e => cases hv
    | ok w =>
      rw [hxy w rfl]
      cases w with
      | none => exact ih none v hv
      | some b =>
        simp only [chain] at hv ⊢
        split_ifs at hv ⊢
        · exact hv
        · exact ih acc v hv

/-- `w` is `v`, or FALSE for a NULL. -/
def Weaker (v w : Option Bool) : Prop := w = v ∨ (v = none ∧ w = some false)

/-- `x'` answers what `x` does but for FALSE in place of NULL, when `x` answers. -/
def Weakens (x x' : Except ε (Option Bool)) : Prop := ∀ v, x = .ok v → ∃ w, x' = .ok w ∧ Weaker v w

theorem Weakens.trans {x y z : Except ε (Option Bool)} (h : Weakens x y) (h' : Weakens y z) : Weakens x z := by
  intro v hv
  obtain ⟨w, hw, rfl | ⟨rfl, rfl⟩⟩ := h v hv
  · exact h' w hw
  · obtain ⟨u, hu, rfl | ⟨hf, -⟩⟩ := h' _ hw
    · exact ⟨_, hu, .inr ⟨rfl, rfl⟩⟩
    · cases hf

theorem chain_none_range {xs : List (Except ε (Option Bool))} {v : Option Bool}
    (h : chain stop none xs = .ok v) : v = none ∨ v = some stop := by
  obtain ⟨pre, post, rfl, hpre⟩ | ⟨pre, e, post, rfl, hpre⟩ | ⟨vs, rfl, hvs⟩ := ends stop xs
  · rw [chain_stop hpre] at h
    exact .inr (Except.ok.inj h).symm
  · rw [chain_error hpre] at h
    cases h
  · rw [chain_through hvs, ite_self] at h
    exact .inl (Except.ok.inj h).symm

/-- Reading NULL operands as FALSE reads the answer so too. -/
theorem chain_weakens {xs ys : List (Except ε (Option Bool))} (h : List.Forall₂ Weakens xs ys)
    {acc acc' : Option Bool} (hacc : Weaker acc acc') (hne : acc ≠ some stop) :
    Weakens (chain stop acc xs) (chain stop acc' ys) := by
  induction h generalizing acc acc' with
  | nil =>
    intro v hv
    obtain rfl := Except.ok.inj hv
    exact ⟨acc', rfl, hacc⟩
  | @cons x y xs ys hxy _ ih =>
    intro v hv
    cases x with
    | error e => cases hv
    | ok w =>
      obtain ⟨w', rfl, rfl | ⟨rfl, rfl⟩⟩ := hxy w rfl
      · cases w' with
        | none => exact ih (.inl rfl) (by simp) v hv
        | some b =>
          simp only [chain] at hv ⊢
          split_ifs at hv ⊢
          · exact ⟨some stop, rfl, .inl (Except.ok.inj hv)⟩
          · exact ih hacc hne v hv
      · cases stop with
        | false =>
          refine ⟨some false, rfl, ?_⟩
          obtain rfl | rfl := chain_none_range hv
          · exact .inr ⟨rfl, rfl⟩
          · exact .inl rfl
        | true =>
          have hnull : Weaker none acc' := by
            obtain rfl | ⟨-, rfl⟩ := hacc
            · obtain rfl | rfl | rfl := truth_cases true acc'
              · exact absurd rfl hne
              · exact .inl rfl
              · exact .inr ⟨rfl, rfl⟩
            · exact .inr ⟨rfl, rfl⟩
          exact ih hnull (by simp) v hv

/-! ## Operands that differ where they do not decide -/

section Disturbed

variable {xs : List (Except ε (Option Bool))} {ys : List (Option Bool)}

/-- `x` is the operand `y` wherever `y` is not the value both loops pass over. -/
def Agrees (stop : Bool) (x : Except ε (Option Bool)) (y : Option Bool) : Prop :=
  y ≠ some (!stop) → x = .ok y

theorem mem_of_agrees (h : List.Forall₂ (Agrees stop) xs ys) {y : Option Bool} (hy : y ∈ ys)
    (hne : y ≠ some (!stop)) : Except.ok y ∈ xs := by
  induction h with
  | nil => cases hy
  | cons hxy _ ih =>
    obtain rfl | hy := List.mem_cons.mp hy
    · rw [hxy hne]
      exact List.mem_cons_self
    · exact List.mem_cons_of_mem _ (ih hy)

/-- The loop over `xs` is the connective over `ys` exactly when every operand that raises stands
    behind a `stop`, a `stop` among `xs` has one among `ys`, and a NULL among `xs` has a NULL or a
    `stop` among `ys`. -/
theorem chain_eq_join_iff (h : List.Forall₂ (Agrees stop) xs ys) :
    chain stop (some !stop) xs = .ok (join stop ys) ↔
      (∀ pre e post, xs = pre ++ .error e :: post → .ok (some stop) ∈ pre) ∧
        (.ok (some stop) ∈ xs → some stop ∈ ys) ∧ (.ok none ∈ xs → some stop ∈ ys ∨ none ∈ ys) := by
  have hstop : some stop ∈ ys → Except.ok (some stop) ∈ xs := fun hy => mem_of_agrees h hy (by simp)
  have hnull : none ∈ ys → Except.ok none ∈ xs := fun hy => mem_of_agrees h hy (by simp)
  obtain ⟨pre, post, rfl, hpre⟩ | ⟨pre, e, post, rfl, hpre⟩ | ⟨vs, rfl, hvs⟩ := ends stop xs
  · rw [chain_stop hpre, Except.ok.injEq, eq_comm, join_eq_stop_iff]
    refine ⟨fun hy => ⟨fun pre' e post' heq => ?_, fun _ => hy, fun _ => .inl hy⟩, fun hc => hc.2.1 (by simp)⟩
    -- the operand that raises stands behind the first `stop`
    obtain ⟨as, rfl, has⟩ | ⟨as, has, heq⟩ := List.append_eq_append_iff.mp heq
    · cases as with
      | nil => cases has
      | cons a as =>
        obtain ⟨rfl, -⟩ := List.cons_eq_cons.mp has
        simp
    · have hmem : Except.error e ∈ pre.map Except.ok ++ [Except.ok (some stop)] := by
        cases as with
        | nil => cases heq
        | cons a as =>
          obtain ⟨rfl, -⟩ := List.cons_eq_cons.mp heq
          simp [has]
      simp at hmem
  · rw [chain_error hpre]
    refine ⟨fun hc => absurd hc (by simp), fun hc => ?_⟩
    have hmem := hc.1 _ e post rfl
    simp [hpre] at hmem
  · have hys : some stop ∉ ys := fun hy => by simpa [hvs] using hstop hy
    have hnull' : none ∈ ys → none ∈ vs := fun hy => by simpa using hnull hy
    have hraise : ∀ pre (e : ε) post, vs.map Except.ok = pre ++ Except.error e :: post →
        Except.ok (some stop) ∈ pre := fun pre e post heq => by
      have hmem : Except.error e ∈ vs.map Except.ok := by simp [heq]
      simp at hmem
    rw [chain_through hvs, Except.ok.injEq, join, if_neg hys]
    simp only [List.mem_map, Except.ok.injEq, exists_eq_right, hvs, hys, false_imp_iff, false_or, true_and]
    refine ⟨fun hv => ⟨hraise, fun hn => ?_⟩, fun hc => ?_⟩
    · by_contra hn'
      simp [hn, hn'] at hv
    · by_cases hn : none ∈ vs
      · rw [if_pos hn, if_pos (hc.2 hn)]
      · rw [if_neg hn, if_neg fun hy => hn (hnull' hy)]

end Disturbed

end Secantus.ThreeValued
