/-
  LIKE answers what its pattern means.

  * `matchText_percent`: under the escape `%` the matcher takes a pattern for one that may also run on in `%`s;
  * `likeMatchBytes_judges`: the `bytea` matcher is right of every pattern, and errors only with bytes left to match;
  * `like_exact_iff`: the two matchers answer by the pattern's meaning, and alike on ASCII, exactly for the patterns and
    subjects on which neither of these and no `_` that is the escape behind a `%` makes a difference.
-/
import Mathlib.Data.List.TakeWhile
import Secantus.Like.Reading
import Secantus.Library.Utf8

namespace Secantus.Like

open Secantus.Library.Wildcards

/-! ## What a pattern means, one step -/

section Steps

variable {α : Type*} [DecidableEq α] {percent underscore : α} {esc : Option α} {q : α} {p : List α}

theorem read_lone (he : some q = esc) : read percent underscore esc [q] = .lone := by
  rw [read.eq_def]
  dsimp only
  rw [if_pos he]

theorem read_escaped (he : some q = esc) (c : α) :
    read percent underscore esc (q :: c :: p) = (read percent underscore esc p).cons (.lit c) := by
  rw [read.eq_def]
  dsimp only
  rw [if_pos he]

theorem read_plain (he : some q ≠ esc) : read percent underscore esc (q :: p) =
    (read percent underscore esc p).cons (if q = percent then .many else if q = underscore then .one else .lit q) := by
  rw [read.eq_def]
  dsimp only
  rw [if_neg he]

end Steps

/-! ## The escape `%` -/

/-- The pattern runs on in `%`s behind a part that already generates the text. -/
def Overruns (p t : Text) : Prop :=
  ∃ q k, p = q ++ List.replicate (k + 1) '%' ∧ (meaning (some '%') q).Accepts t

/-- Under the escape `%` nothing generates the empty text but the empty pattern. -/
theorem accepts_nil_iff {p : Text} : (meaning (some '%') p).Accepts [] ↔ p = [] := by
  constructor
  · rintro ⟨hd, hg⟩
    cases p with
    | nil => rfl
    | cons q p =>
      exfalso
      by_cases he : some q = some '%'
      · cases p with
        | nil =>
          unfold meaning at hd
          rw [read_lone he] at hd
          cases hd
        | cons c p =>
          unfold meaning at hg
          rw [read_escaped he] at hg
          obtain ⟨r, hr, -⟩ := hg
          cases hr
      · unfold meaning at hg
        rw [read_plain he, if_neg fun h => he (congrArg some h)] at hg
        split at hg
        · obtain ⟨c, r, hr, -⟩ := hg
          cases hr
        · obtain ⟨r, hr, -⟩ := hg
          cases hr
  · rintro rfl
    exact ⟨rfl, rfl⟩

/-- What the loop answers under the escape `%`. -/
def JudgesLoosely (p t : Text) : Except SqlError Outcome → Prop
  | .error e => e = trailingEscape ∧ (meaning (some '%') p).Fails t ∧ ¬ Overruns p t
  | .ok .true => ¬ (meaning (some '%') p).Fails t ∧
      ((meaning (some '%') p).Accepts t ∧ ¬ Overruns p t ∨ ¬ (meaning (some '%') p).Accepts t ∧ Overruns p t)
  | .ok _ => ¬ (meaning (some '%') p).Fails t ∧ ¬ (meaning (some '%') p).Accepts t ∧ ¬ Overruns p t

theorem JudgesLoosely.congr {p p' t t' : Text} {answer : Except SqlError Outcome} (h : JudgesLoosely p' t' answer)
    (hf : (meaning (some '%') p).Fails t ↔ (meaning (some '%') p').Fails t')
    (ha : (meaning (some '%') p).Accepts t ↔ (meaning (some '%') p').Accepts t')
    (ho : Overruns p t ↔ Overruns p' t') : JudgesLoosely p t answer := by
  unfold JudgesLoosely
  rw [hf, ha, ho]
  exact h

theorem judgesLoosely_nil (p : Text) : JudgesLoosely p [] (.ok (atEnd p)) := by
  have hnf : ¬ (meaning (some '%') p).Fails [] := fun hf => not_reaches_nil _ hf.2
  have hover : Overruns p [] ↔ ∃ k, p = List.replicate (k + 1) '%' := by
    constructor
    · rintro ⟨q, k, rfl, hq⟩
      rw [accepts_nil_iff.mp hq]
      exact ⟨k, rfl⟩
    · rintro ⟨k, rfl⟩
      exact ⟨[], k, rfl, accepts_nil_iff.mpr rfl⟩
  unfold atEnd
  split
  · rename_i h
    refine ⟨hnf, ?_⟩
    rw [accepts_nil_iff, hover]
    cases p with
    | nil => exact .inl ⟨rfl, by simp⟩
    | cons c p =>
      refine .inr ⟨by simp, p.length, List.eq_replicate_of_mem fun b hb => ?_⟩
      have := List.dropWhile_eq_nil_iff.mp h b hb
      simpa using this
  · rename_i h
    refine ⟨hnf, ?_, ?_⟩
    · rw [accepts_nil_iff]
      rintro rfl
      exact h rfl
    · rw [hover]
      rintro ⟨k, rfl⟩
      exact h (List.dropWhile_eq_nil_iff.mpr fun b hb => by simp [List.eq_of_mem_replicate hb])

/-- A literal, or the character for a `_`, taken off the text and the pattern. -/
theorem overruns_step {tok : Token Char} {front : Text} {c : Char} {p t : Text}
    (hmeans : ∀ p, meaning (some '%') (front ++ p) = (meaning (some '%') p).cons tok)
    (htakes : ∀ ts s, Generates (tok :: ts) (c :: s) ↔ Generates ts s)
    (hfront : ∀ q k, front ++ p = q ++ List.replicate (k + 1) '%' → (meaning (some '%') q).Accepts (c :: t) →
      ∃ q', q = front ++ q') :
    ((meaning (some '%') (front ++ p)).Accepts (c :: t) ↔ (meaning (some '%') p).Accepts t) ∧
      (Overruns (front ++ p) (c :: t) ↔ Overruns p t) := by
  have haccepts : ∀ q, (meaning (some '%') (front ++ q)).Accepts (c :: t) ↔ (meaning (some '%') q).Accepts t := by
    intro q
    rw [hmeans]
    exact and_congr_right fun _ => htakes _ _
  refine ⟨haccepts p, ?_⟩
  constructor
  · rintro ⟨q, k, hp, hq⟩
    obtain ⟨q', rfl⟩ := hfront q k hp hq
    rw [List.append_assoc] at hp
    exact ⟨q', k, List.append_cancel_left hp, (haccepts q').mp hq⟩
  · rintro ⟨q, k, rfl, hq⟩
    exact ⟨front ++ q, k, (List.append_assoc _ _ _).symm, (haccepts q).mpr hq⟩

theorem exists_behind {c : Char} {s : Text} {P : Text → Prop} : (∃ r, c :: s = c :: r ∧ P r) ↔ P s := by
  refine ⟨?_, fun h => ⟨s, rfl, h⟩⟩
  rintro ⟨r, hr, h⟩
  rwa [(List.cons_eq_cons.mp hr).2]

theorem exists_letter_behind {c : Char} {s : Text} {P : Text → Prop} : (∃ a r, c :: s = a :: r ∧ P r) ↔ P s := by
  refine ⟨?_, fun h => ⟨c, s, rfl, h⟩⟩
  rintro ⟨a, r, hr, h⟩
  rwa [(List.cons_eq_cons.mp hr).2]

theorem matchLoop_percent (t p : Text) : JudgesLoosely p t (matchLoop (some '%') t p) := by
  induction hn : p.length using Nat.strong_induction_on generalizing t p with
  | _ n ih =>
    subst hn
    cases t with
    | nil =>
      rw [matchLoop]
      exact judgesLoosely_nil p
    | cons c t =>
      have hnil : ¬ (meaning (some '%') []).Accepts (c :: t) := by
        rintro ⟨-, h⟩
        cases h
      cases p with
      | nil =>
        rw [matchLoop]
        refine ⟨fun hf => Bool.false_ne_true hf.1, hnil, ?_⟩
        rintro ⟨q, k, hq, -⟩
        exact absurd hq.symm (by simp)
      | cons q p =>
        rw [matchLoop.eq_def]
        dsimp only
        -- no part of the pattern that generates the text is empty
        have hcut : ∀ q' k, q :: p = q' ++ List.replicate (k + 1) '%' → (meaning (some '%') q').Accepts (c :: t) →
            ∃ q'', q' = q :: q'' := by
          intro q' k h hq'
          cases q' with
          | nil => exact absurd hq' hnil
          | cons a q' =>
            rw [(List.cons_eq_cons.mp h).1]
            exact ⟨q', rfl⟩
        by_cases he : some q = some '%'
        · rw [if_pos he]
          have hlone : ¬ (meaning (some '%') [q]).Accepts (c :: t) := by
            rintro ⟨hd, -⟩
            unfold meaning at hd
            rw [read_lone he] at hd
            cases hd
          cases p with
          | nil =>
            refine ⟨rfl, ?_, ?_⟩
            · unfold meaning
              rw [read_lone he]
              exact ⟨rfl, List.cons_ne_nil c t⟩
            · rintro ⟨q', k, h, hq'⟩
              obtain ⟨q'', rfl⟩ := hcut q' k h hq'
              have hnil' := congrArg List.length h
              simp at hnil'
          | cons l p =>
            have hmeans : ∀ p, meaning (some '%') ([q, l] ++ p) = (meaning (some '%') p).cons (.lit l) :=
              fun p => read_escaped he l
            have hfront : ∀ q' k, [q, l] ++ p = q' ++ List.replicate (k + 1) '%' →
                (meaning (some '%') q').Accepts (c :: t) → ∃ q'', q' = [q, l] ++ q'' := by
              intro q' k h hq'
              obtain ⟨q'', rfl⟩ := hcut q' k h hq'
              cases q'' with
              | nil => exact absurd hq' hlone
              | cons a q'' =>
                obtain ⟨rfl, -⟩ := List.cons_eq_cons.mp (List.cons_eq_cons.mp h).2
                exact ⟨q'', rfl⟩
            dsimp only
            by_cases hl : l = c
            · subst hl
              obtain ⟨ha, ho⟩ := overruns_step (c := l) (t := t) hmeans
                (fun _ _ => exists_behind) hfront
              rw [if_neg (not_not.mpr rfl)]
              refine (ih p.length (Nat.lt_succ_of_lt (Nat.lt_succ_self _)) t p rfl).congr ?_ ha ho
              show (meaning (some '%') ([q, l] ++ p)).Fails (l :: t) ↔ _
              rw [hmeans]
              exact and_congr_right fun _ => exists_behind
            · rw [if_pos hl]
              have hno : ∀ p, ¬ (meaning (some '%') ([q, l] ++ p)).Accepts (c :: t) ∧
                  ¬ (meaning (some '%') ([q, l] ++ p)).Fails (c :: t) := by
                intro p
                rw [hmeans]
                refine ⟨?_, ?_⟩
                · rintro ⟨-, r, hr, -⟩
                  exact hl (List.cons_eq_cons.mp hr).1.symm
                · rintro ⟨-, r, hr, -⟩
                  exact hl (List.cons_eq_cons.mp hr).1.symm
              refine ⟨(hno p).2, (hno p).1, ?_⟩
              rintro ⟨q', k, h, hq'⟩
              obtain ⟨q'', rfl⟩ := hfront q' k h hq'
              exact (hno q'').1 hq'
        · have hp : q ≠ '%' := fun h => he (congrArg some h)
          rw [if_neg he, if_neg hp]
          have hfront : ∀ q' k, [q] ++ p = q' ++ List.replicate (k + 1) '%' →
              (meaning (some '%') q').Accepts (c :: t) → ∃ q'', q' = [q] ++ q'' := hcut
          by_cases hu : q = '_'
          · subst hu
            have hmeans : ∀ p, meaning (some '%') (['_'] ++ p) = (meaning (some '%') p).cons .one := by
              intro p
              exact (read_plain (by decide)).trans (by rw [if_neg (by decide), if_pos rfl]; rfl)
            obtain ⟨ha, ho⟩ := overruns_step (c := c) (t := t) hmeans
              (fun _ _ => exists_letter_behind) hfront
            rw [if_pos rfl]
            refine (ih p.length (by simp) t p rfl).congr ?_ ha ho
            show (meaning (some '%') (['_'] ++ p)).Fails (c :: t) ↔ _
            rw [hmeans]
            exact and_congr_right fun _ => exists_letter_behind
          · have hmeans : ∀ p, meaning (some '%') ([q] ++ p) = (meaning (some '%') p).cons (.lit q) := by
              intro p
              exact (read_plain he).trans (by rw [if_neg hp, if_neg hu]; rfl)
            rw [if_neg hu]
            by_cases hq : q = c
            · subst hq
              obtain ⟨ha, ho⟩ := overruns_step (c := q) (t := t) hmeans
                (fun _ _ => exists_behind) hfront
              rw [if_neg (not_not.mpr rfl)]
              refine (ih p.length (by simp) t p rfl).congr ?_ ha ho
              show (meaning (some '%') ([q] ++ p)).Fails (q :: t) ↔ _
              rw [hmeans]
              exact and_congr_right fun _ => exists_behind
            · rw [if_pos hq]
              have hno : ∀ p, ¬ (meaning (some '%') ([q] ++ p)).Accepts (c :: t) ∧
                  ¬ (meaning (some '%') ([q] ++ p)).Fails (c :: t) := by
                intro p
                rw [hmeans]
                refine ⟨?_, ?_⟩
                · rintro ⟨-, r, hr, -⟩
                  exact hq (List.cons_eq_cons.mp hr).1.symm
                · rintro ⟨-, r, hr, -⟩
                  exact hq (List.cons_eq_cons.mp hr).1.symm
              refine ⟨(hno p).2, (hno p).1, ?_⟩
              rintro ⟨q', k, h, hq'⟩
              obtain ⟨q'', rfl⟩ := hfront q' k h hq'
              exact (hno q'').1 hq'

/-! ## Bytes -/

/-- An answer of the `bytea` matcher is right of the pattern `r`. -/
def JudgesBytes (r : Reading UInt8) (s : List UInt8) : Except SqlError Bool → Prop
  | .error e => e = trailingEscape ∧ r.FailsWithin s
  | .ok true => r.Accepts s
  | .ok false => ¬ r.Accepts s ∧ ¬ r.FailsWithin s

/-- A token that takes a letter leaves the answer to the rest. -/
theorem JudgesBytes.take {r : Reading UInt8} {tok : Token UInt8} {b : UInt8} {s : List UInt8}
    {answer : Except SqlError Bool} (h : JudgesBytes r s answer)
    (hg : Generates (tok :: r.tokens) (b :: s) ↔ Generates r.tokens s)
    (hl : Leaves (tok :: r.tokens) (b :: s) ↔ Leaves r.tokens s) : JudgesBytes (r.cons tok) (b :: s) answer := by
  match answer, h with
  | .error e, ⟨he, hd, h⟩ => exact ⟨he, hd, hl.mpr h⟩
  | .ok true, ⟨hd, h⟩ => exact ⟨hd, hg.mpr h⟩
  | .ok false, ⟨hna, hnf⟩ =>
    exact ⟨fun h => hna ⟨h.1, hg.mp h.2⟩, fun h => hnf ⟨h.1, hl.mp h.2⟩⟩

theorem JudgesBytes.lit {r : Reading UInt8} {s : List UInt8} {answer : Except SqlError Bool}
    (h : JudgesBytes r s answer) (b : UInt8) : JudgesBytes (r.cons (.lit b)) (b :: s) answer := by
  refine h.take ?_ ?_
  · exact ⟨fun ⟨r, hr, h⟩ => (List.cons_eq_cons.mp hr).2 ▸ h, fun h => ⟨s, rfl, h⟩⟩
  · exact ⟨fun ⟨r, hr, h⟩ => (List.cons_eq_cons.mp hr).2 ▸ h, fun h => ⟨s, rfl, h⟩⟩

theorem JudgesBytes.one {r : Reading UInt8} {s : List UInt8} {answer : Except SqlError Bool}
    (h : JudgesBytes r s answer) (b : UInt8) : JudgesBytes (r.cons .one) (b :: s) answer := by
  refine h.take ?_ ?_
  · exact ⟨fun ⟨a, r, hr, h⟩ => (List.cons_eq_cons.mp hr).2 ▸ h, fun h => ⟨b, s, rfl, h⟩⟩
  · exact ⟨fun ⟨a, r, hr, h⟩ => (List.cons_eq_cons.mp hr).2 ▸ h, fun h => ⟨b, s, rfl, h⟩⟩

theorem judgesBytes_lit_of_ne {r : Reading UInt8} {c : UInt8} {s : List UInt8} (h : ∀ t, s ≠ c :: t) :
    JudgesBytes (r.cons (.lit c)) s (.ok false) := by
  refine ⟨?_, ?_⟩
  · rintro ⟨-, t, hs, -⟩
    exact h t hs
  · rintro ⟨-, t, hs, -⟩
    exact h t hs

theorem anyEnd_judges {r : Reading UInt8} {rest : List UInt8 → Except SqlError Bool}
    (h : ∀ s, JudgesBytes r s (rest s)) (s : List UInt8) : JudgesBytes (r.cons .many) s (anyEnd rest s) := by
  have haccepts : ∀ s, (r.cons .many).Accepts s ↔ ∃ t, t <:+ s ∧ r.Accepts t := by
    intro s
    constructor
    · rintro ⟨hd, t, ht, hg⟩
      exact ⟨t, ht, hd, hg⟩
    · rintro ⟨t, ht, hd, hg⟩
      exact ⟨hd, t, ht, hg⟩
  have hfails : ∀ s, (r.cons .many).FailsWithin s ↔ ∃ t, t <:+ s ∧ r.FailsWithin t := by
    intro s
    constructor
    · rintro ⟨hd, t, ht, hg⟩
      exact ⟨t, ht, hd, hg⟩
    · rintro ⟨t, ht, hd, hg⟩
      exact ⟨hd, t, ht, hg⟩
  induction s with
  | nil =>
    have hnil : ∀ P : List UInt8 → Prop, (∃ t, t <:+ ([] : List UInt8) ∧ P t) ↔ P [] := by
      intro P
      exact ⟨fun ⟨t, ht, hP⟩ => List.suffix_nil.mp ht ▸ hP, fun hP => ⟨[], List.suffix_refl [], hP⟩⟩
    have hlast := h []
    unfold anyEnd
    unfold JudgesBytes at hlast ⊢
    rw [haccepts, hfails, hnil, hnil]
    exact hlast
  | cons b s ih =>
    have hhere := h (b :: s)
    unfold JudgesBytes at hhere ih ⊢
    rw [haccepts, hfails] at ih
    rw [haccepts, hfails, exists_suffix_cons, exists_suffix_cons, anyEnd]
    match rest (b :: s), hhere with
    | .error e, ⟨he, hf⟩ => exact ⟨he, .inl hf⟩
    | .ok true, ha => exact .inl ha
    | .ok false, ⟨hna, hnf⟩ =>
      show (match anyEnd rest s with | .error e => _ | .ok true => _ | .ok false => _)
      match anyEnd rest s, ih with
      | .error e, ⟨he, hf⟩ => exact ⟨he, .inr hf⟩
      | .ok true, ha => exact .inr ha
      | .ok false, ⟨ha, hf⟩ => exact ⟨not_or.mpr ⟨hna, ha⟩, not_or.mpr ⟨hnf, hf⟩⟩

/-- The `bytea` matcher is right of every pattern; it errors where matching reaches a lone escape with bytes left. -/
theorem likeMatchBytes_judges (esc : Option UInt8) (s p : List UInt8) :
    JudgesBytes (read 37 95 esc p) s (likeMatchBytes esc s p) := by
  induction hn : p.length using Nat.strong_induction_on generalizing s p with
  | _ n ih =>
    subst hn
    cases p with
    | nil =>
      rw [likeMatchBytes]
      cases s with
      | nil => exact ⟨rfl, rfl⟩
      | cons b s =>
        refine ⟨?_, fun h => Bool.false_ne_true h.1⟩
        rintro ⟨-, h⟩
        cases h
    | cons q p =>
      rw [likeMatchBytes.eq_def]
      dsimp only
      by_cases he : some q = esc
      · rw [if_pos he]
        cases p with
        | nil =>
          rw [read_lone he]
          cases s with
          | nil => exact ⟨fun h => Bool.false_ne_true h.1.symm, fun h => h.2 rfl⟩
          | cons b s => exact ⟨rfl, rfl, List.cons_ne_nil b s⟩
        | cons l p =>
          rw [read_escaped he]
          cases s with
          | nil => exact judgesBytes_lit_of_ne fun t => (List.cons_ne_nil l t).symm
          | cons b s =>
            dsimp only
            by_cases hb : b = l
            · rw [if_pos hb, hb]
              exact (ih p.length (Nat.lt_succ_of_lt (Nat.lt_succ_self _)) s p rfl).lit l
            · rw [if_neg hb]
              exact judgesBytes_lit_of_ne fun t h => hb (List.cons_eq_cons.mp h).1
      · rw [if_neg he, read_plain he]
        by_cases hp : q = 37
        · rw [if_pos hp, if_pos hp]
          exact anyEnd_judges (fun s => ih p.length (by simp) s p rfl) s
        · rw [if_neg hp, if_neg hp]
          cases s with
          | nil =>
            split
            · refine ⟨?_, ?_⟩
              · rintro ⟨-, c, t, h, -⟩
                cases h
              · rintro ⟨-, c, t, h, -⟩
                cases h
            · exact judgesBytes_lit_of_ne fun t => (List.cons_ne_nil q t).symm
          | cons b s =>
            dsimp only
            by_cases hu : q = 95
            · rw [if_pos hu, if_pos (Or.inl hu)]
              exact (ih p.length (by simp) s p rfl).one b
            · rw [if_neg hu]
              by_cases hb : b = q
              · rw [if_pos (Or.inr hb), hb]
                exact (ih p.length (by simp) s p rfl).lit q
              · rw [if_neg (by tauto)]
                exact judgesBytes_lit_of_ne fun t h => hb (List.cons_eq_cons.mp h).1

/-! ## Text as bytes -/

/-- The byte of a one-byte character. -/
def byteOf (c : Char) : UInt8 := UInt8.ofNat c.toNat

def OneByte (c : Char) : Prop := c.toNat < 256

theorem byteOf_inj {a b : Char} (ha : OneByte a) (hb : OneByte b) (h : byteOf a = byteOf b) : a = b := by
  have hnat := congrArg UInt8.toNat h
  unfold byteOf at hnat
  rw [UInt8.toNat_ofNat', UInt8.toNat_ofNat', Nat.mod_eq_of_lt ha, Nat.mod_eq_of_lt hb] at hnat
  exact Char.toNat_inj.mp hnat

/-- What a pattern means does not depend on whether it is read as text or as bytes. -/
theorem read_bytes {esc : Option Char} (hesc : ∀ e ∈ esc, OneByte e) {p : Text} (hp : ∀ c ∈ p, OneByte c) :
    read 37 95 (esc.map byteOf) (p.map byteOf) =
      ⟨(meaning esc p).tokens.map (Token.map byteOf), (meaning esc p).dangling⟩ := by
  have hbyte : ∀ {a b : Char}, OneByte a → OneByte b → (byteOf a = byteOf b ↔ a = b) := fun ha hb =>
    ⟨byteOf_inj ha hb, congrArg byteOf⟩
  induction hn : p.length using Nat.strong_induction_on generalizing p with
  | _ n ih =>
    subst hn
    cases p with
    | nil => rfl
    | cons q p =>
      have hq := hp q List.mem_cons_self
      have hrest : ∀ c ∈ p, OneByte c := fun c hc => hp c (List.mem_cons_of_mem q hc)
      have hescape : some (byteOf q) = esc.map byteOf ↔ some q = esc := by
        cases esc with
        | none => simp
        | some e => simpa using hbyte hq (hesc e rfl)
      rw [List.map_cons]
      unfold meaning
      by_cases he : some q = esc
      · cases p with
        | nil =>
          rw [read_lone he]
          exact read_lone (hescape.mpr he)
        | cons c p =>
          rw [read_escaped he, List.map_cons, read_escaped (hescape.mpr he),
            ih p.length (Nat.lt_succ_of_lt (Nat.lt_succ_self _)) (fun d hd => hrest d (List.mem_cons_of_mem c hd)) rfl]
          rfl
      · rw [read_plain he, read_plain (fun h => he (hescape.mp h)), ih p.length (by simp) hrest rfl]
        have hpercent : byteOf q = 37 ↔ q = '%' := hbyte hq (show ('%').toNat < 256 by decide)
        have hunderscore : byteOf q = 95 ↔ q = '_' := hbyte hq (show ('_').toNat < 256 by decide)
        simp only [hpercent, hunderscore]
        split
        · rfl
        · split <;> rfl

theorem meaning_spelled {P : Char → Prop} {esc : Option Char} {p : Text} (hp : ∀ c ∈ p, P c) :
    Spelled P (meaning esc p).tokens := by
  induction hn : p.length using Nat.strong_induction_on generalizing p with
  | _ n ih =>
    subst hn
    cases p with
    | nil =>
      intro c hc
      cases hc
    | cons q p =>
      have hrest : ∀ c ∈ p, P c := fun c hc => hp c (List.mem_cons_of_mem q hc)
      unfold meaning
      by_cases he : some q = esc
      · cases p with
        | nil =>
          rw [read_lone he]
          intro c hc
          cases hc
        | cons d p =>
          rw [read_escaped he]
          intro c hc
          rcases List.mem_cons.mp hc with h | hc
          · cases h
            exact hrest d List.mem_cons_self
          · exact ih p.length (Nat.lt_succ_of_lt (Nat.lt_succ_self _)) (fun a ha => hrest a (List.mem_cons_of_mem d ha)) rfl c hc
      · rw [read_plain he]
        intro c hc
        rcases List.mem_cons.mp hc with h | hc
        · split at h
          · cases h
          · split at h
            · cases h
            · cases h
              exact hp q List.mem_cons_self
        · exact ih p.length (by simp) hrest rfl c hc

/-- The `bytea` matcher on the bytes of a text. -/
theorem likeMatchBytes_text {esc : Option Char} (hesc : ∀ e ∈ esc, OneByte e) {s p : Text} (hs : ∀ c ∈ s, OneByte c)
    (hp : ∀ c ∈ p, OneByte c) :
    match likeMatchBytes (esc.map byteOf) (s.map byteOf) (p.map byteOf) with
    | .error e => e = trailingEscape ∧ (meaning esc p).FailsWithin s
    | .ok true => (meaning esc p).Accepts s
    | .ok false => ¬ (meaning esc p).Accepts s ∧ ¬ (meaning esc p).FailsWithin s := by
  have hspelled := @meaning_spelled _ esc _ hp
  have hgenerates : ∀ u : Text, (∀ c ∈ u, OneByte c) →
      (Generates ((meaning esc p).tokens.map (Token.map byteOf)) (u.map byteOf) ↔ Generates (meaning esc p).tokens u) :=
    fun u hu => generates_map (fun a b => byteOf_inj) hspelled hu
  have hleaves : Leaves ((meaning esc p).tokens.map (Token.map byteOf)) (s.map byteOf) ↔
      Leaves (meaning esc p).tokens s := by
    rw [leaves_iff, leaves_iff]
    constructor
    · rintro ⟨u, v, huv, hv, hg⟩
      obtain ⟨u', v', rfl, rfl, rfl⟩ := List.map_eq_append_iff.mp huv
      refine ⟨u', v', rfl, fun h => hv (by rw [h]; rfl), ?_⟩
      exact (hgenerates u' fun c hc => hs c (List.mem_append_left v' hc)).mp hg
    · rintro ⟨u, v, rfl, hv, hg⟩
      refine ⟨u.map byteOf, v.map byteOf, List.map_append, fun h => hv (List.map_eq_nil_iff.mp h), ?_⟩
      exact (hgenerates u fun c hc => hs c (List.mem_append_left v hc)).mpr hg
  have hjudges := likeMatchBytes_judges (esc.map byteOf) (s.map byteOf) (p.map byteOf)
  rw [read_bytes hesc hp] at hjudges
  unfold JudgesBytes Reading.Accepts Reading.FailsWithin at hjudges
  unfold Reading.Accepts Reading.FailsWithin
  rw [hgenerates s hs, hleaves] at hjudges
  exact hjudges

/-! ## LIKE -/

/-- A character of ASCII. -/
def Ascii (c : Char) : Prop := c.toNat < 128

/-- A LIKE answers by what its pattern means: true where the pattern generates the subject, an error where matching
reaches a lone escape at its end, and over `bytea` the same. -/
structure AnswersByMeaning (lower : Text → Text) (subject pattern : Text) (escape : Option Char) : Prop where
  matches_iff : likeMatch lower subject pattern escape false = .ok true ↔ (meaning escape pattern).Accepts subject
  fails_iff : likeMatch lower subject pattern escape false = .error trailingEscape ↔
    (meaning escape pattern).Fails subject
  bytes_eq : (∀ c ∈ subject, Ascii c) → (∀ c ∈ pattern, Ascii c) → (∀ e ∈ escape, OneByte e) →
    likeMatchBytes (escape.map byteOf) (subject.map byteOf) (pattern.map byteOf) =
      likeMatch lower subject pattern escape false

/-- Nothing the matchers read otherwise than it is meant makes a difference. -/
structure ReadAsMeant (subject pattern : Text) (escape : Option Char) : Prop where
  /-- Under the escape `%`: the pattern is no `%` alone, and does not run on in `%`s behind what generates the subject. -/
  percent : escape = some '%' → pattern ≠ ['%'] ∧ ¬ Overruns pattern subject
  /-- Under the escape `_`: whether it is read as a wildcard behind a `%` does not matter. -/
  underscore : escape = some '_' →
    ((readAs escape false pattern).Accepts subject ↔ (meaning escape pattern).Accepts subject) ∧
      ((readAs escape false pattern).Fails subject ↔ (meaning escape pattern).Fails subject)
  /-- Over `bytea`: matching that reaches a lone escape reaches it with text left. -/
  within : (∀ c ∈ subject, Ascii c) → (∀ c ∈ pattern, Ascii c) → (∀ e ∈ escape, OneByte e) →
    (meaning escape pattern).Fails subject → (meaning escape pattern).FailsWithin subject

theorem likeMatch_eq (lower : Text → Text) (subject pattern : Text) (escape : Option Char) :
    likeMatch lower subject pattern escape false =
      (matchText escape subject pattern).map fun m => decide (m = .true) := by
  have hescape : escape.map (foldEscape lower false) = escape := by
    cases escape <;> rfl
  unfold likeMatch
  rw [hescape]
  show (matchText escape subject pattern >>= fun m => pure (decide (m = Outcome.true))) = _
  cases matchText escape subject pattern <;> rfl

/-- The text matcher's answer, of a pattern taken for `r` where its answers are right of that. -/
theorem likeMatch_of_right (lower : Text → Text) {subject pattern : Text} {escape : Option Char} {A F : Prop}
    (hAF : A → ¬ F)
    (h : match matchText escape subject pattern with
      | .error e => e = trailingEscape ∧ F
      | .ok .true => A
      | .ok _ => ¬ A ∧ ¬ F) :
    (likeMatch lower subject pattern escape false = .ok true ↔ A) ∧
      (likeMatch lower subject pattern escape false = .error trailingEscape ↔ F) := by
  rw [likeMatch_eq]
  match matchText escape subject pattern, h with
  | .error e, ⟨he, hF⟩ =>
    subst he
    exact ⟨⟨nofun, fun hA => absurd hF (hAF hA)⟩, ⟨fun _ => hF, fun _ => rfl⟩⟩
  | .ok .true, hA => exact ⟨⟨fun _ => hA, fun _ => rfl⟩, ⟨nofun, fun hF => absurd hF (hAF hA)⟩⟩
  | .ok .false, ⟨hA, hF⟩ => exact ⟨⟨nofun, fun h => absurd h hA⟩, ⟨nofun, fun h => absurd h hF⟩⟩
  | .ok .abort, ⟨hA, hF⟩ => exact ⟨⟨nofun, fun h => absurd h hA⟩, ⟨nofun, fun h => absurd h hF⟩⟩

/-- Where the escape is not `%`, the text matcher answers by the pattern as it reads it. -/
theorem likeMatch_readAs (lower : Text → Text) (subject pattern : Text) {escape : Option Char}
    (hesc : escape ≠ some '%') :
    (likeMatch lower subject pattern escape false = .ok true ↔ (readAs escape false pattern).Accepts subject) ∧
      (likeMatch lower subject pattern escape false = .error trailingEscape ↔
        (readAs escape false pattern).Fails subject) := by
  refine likeMatch_of_right lower Reading.not_fails_of_accepts ?_
  have hjudges := matchText_judges hesc subject pattern
  match matchText escape subject pattern, hjudges with
  | .error e, h => exact h
  | .ok .true, h => exact h
  | .ok .false, h => exact h
  | .ok .abort, h => exact h subject (List.suffix_refl subject)

/-- Under the escape `%`, by the pattern as it is meant where it is no `%` alone and does not run on. -/
theorem likeMatch_percent (lower : Text → Text) (subject pattern : Text) :
    (likeMatch lower subject pattern (some '%') false = .ok true ↔ (meaning (some '%') pattern).Accepts subject) ∧
        (likeMatch lower subject pattern (some '%') false = .error trailingEscape ↔
          (meaning (some '%') pattern).Fails subject) ↔
      pattern ≠ ['%'] ∧ ¬ Overruns pattern subject := by
  by_cases hp : pattern = ['%']
  · have hnot : ¬ (meaning (some '%') pattern).Accepts subject := by
      rintro ⟨hd, -⟩
      rw [hp] at hd
      cases hd
    have htrue : likeMatch lower subject pattern (some '%') false = .ok true := by
      rw [likeMatch_eq, matchText, if_pos hp]
      rfl
    exact ⟨fun h => absurd (h.1.mp htrue) hnot, fun h => absurd hp h.1⟩
  · have hloop : matchText (some '%') subject pattern = matchLoop (some '%') subject pattern := by
      rw [matchText, if_neg hp]
    have hjudges := matchLoop_percent subject pattern
    rw [← hloop] at hjudges
    constructor
    · intro h
      refine ⟨hp, fun hover => ?_⟩
      -- the pattern runs on: the matcher says true, and the pattern does not generate the subject
      have hm := h.1
      rw [likeMatch_eq] at hm
      match hans : matchText (some '%') subject pattern, hjudges with
      | .error e, ⟨_, _, hno⟩ => exact hno hover
      | .ok .true, ⟨_, .inl ⟨_, hno⟩⟩ => exact hno hover
      | .ok .true, ⟨_, .inr ⟨hnot, _⟩⟩ => exact hnot (hm.mp (by rw [hans]; rfl))
      | .ok .false, ⟨_, _, hno⟩ => exact hno hover
      | .ok .abort, ⟨_, _, hno⟩ => exact hno hover
    · rintro ⟨-, hno⟩
      refine likeMatch_of_right lower Reading.not_fails_of_accepts ?_
      match matchText (some '%') subject pattern, hjudges with
      | .error e, ⟨he, hf, _⟩ => exact ⟨he, hf⟩
      | .ok .true, ⟨_, .inl ⟨ha, _⟩⟩ => exact ha
      | .ok .true, ⟨_, .inr ⟨_, hover⟩⟩ => exact absurd hover hno
      | .ok .false, ⟨hnf, hna, _⟩ => exact ⟨hna, hnf⟩
      | .ok .abort, ⟨hnf, hna, _⟩ => exact ⟨hna, hnf⟩

/-- A text matcher that is right of the pattern agrees with the `bytea` one unless only its look-ahead fails. -/
theorem likeMatchBytes_eq_iff {escape : Option Char} (hesc : ∀ e ∈ escape, OneByte e) {subject pattern : Text}
    (hs : ∀ c ∈ subject, Ascii c) (hp : ∀ c ∈ pattern, Ascii c) {answer : Except SqlError Bool}
    (herror : ∀ e, answer = .error e → e = trailingEscape)
    (hm : answer = .ok true ↔ (meaning escape pattern).Accepts subject)
    (hf : answer = .error trailingEscape ↔ (meaning escape pattern).Fails subject) :
    likeMatchBytes (escape.map byteOf) (subject.map byteOf) (pattern.map byteOf) = answer ↔
      ((meaning escape pattern).Fails subject → (meaning escape pattern).FailsWithin subject) := by
  have hbytes := likeMatchBytes_text hesc (fun c hc => (hs c hc).trans (by decide)) fun c hc =>
    (hp c hc).trans (by decide)
  have hexcl : (meaning escape pattern).Accepts subject → ¬ (meaning escape pattern).FailsWithin subject :=
    fun ha hw => Reading.not_fails_of_accepts ha ⟨hw.1, hw.2.reaches⟩
  constructor
  · intro heq hfails
    rw [heq, hf.mpr hfails] at hbytes
    exact hbytes.2
  · intro hwithin
    generalize likeMatchBytes (escape.map byteOf) (subject.map byteOf) (pattern.map byteOf) = bytes at hbytes ⊢
    match answer, hm, hf, herror with
    | .error e, _, hf, herror =>
      have he := herror e rfl
      subst he
      have hw := hwithin (hf.mp rfl)
      match bytes, hbytes with
      | .error e, ⟨he, _⟩ => rw [he]
      | .ok true, ha => exact absurd hw (hexcl ha)
      | .ok false, ⟨_, hno⟩ => exact absurd hw hno
    | .ok true, hm, _, _ =>
      have ha := hm.mp rfl
      match bytes, hbytes with
      | .error e, ⟨_, hw⟩ => exact absurd hw (hexcl ha)
      | .ok true, _ => rfl
      | .ok false, ⟨hno, _⟩ => exact absurd ha hno
    | .ok false, hm, hf, _ =>
      match bytes, hbytes with
      | .error e, ⟨_, hw⟩ => exact absurd (hf.mpr ⟨hw.1, hw.2.reaches⟩) (by simp)
      | .ok true, ha => exact absurd (hm.mpr ha) (by simp)
      | .ok false, _ => rfl

theorem likeMatch_error {lower : Text → Text} {subject pattern : Text} {escape : Option Char} {e : SqlError}
    (h : likeMatch lower subject pattern escape false = .error e) : e = trailingEscape := by
  rw [likeMatch_eq] at h
  have hmatch : matchText escape subject pattern = .error e := by
    cases hans : matchText escape subject pattern with
    | error e' =>
      rw [hans] at h
      cases h
      rfl
    | ok m =>
      rw [hans] at h
      cases h
  by_cases hesc : escape = some '%'
  · subst hesc
    unfold matchText at hmatch
    split at hmatch
    · cases hmatch
    · have hjudges := matchLoop_percent subject pattern
      rw [hmatch] at hjudges
      exact hjudges.1
  · have hjudges := matchText_judges hesc subject pattern
    rw [hmatch] at hjudges
    exact hjudges.1

/-- LIKE answers by what its pattern means exactly where nothing that is read otherwise makes a difference. -/
theorem like_exact_iff (lower : Text → Text) (subject pattern : Text) (escape : Option Char) :
    AnswersByMeaning lower subject pattern escape ↔ ReadAsMeant subject pattern escape := by
  have hbytes := fun hesc hs hp => @likeMatchBytes_eq_iff escape hesc subject pattern hs hp
    (likeMatch lower subject pattern escape false) fun e => likeMatch_error
  constructor
  · rintro ⟨hm, hf, heq⟩
    refine ⟨?_, ?_, fun hs hp hesc => (hbytes hesc hs hp hm hf).mp (heq hs hp hesc)⟩
    · rintro rfl
      exact (likeMatch_percent lower subject pattern).mp ⟨hm, hf⟩
    · rintro rfl
      obtain ⟨ha, hfail⟩ := @likeMatch_readAs lower subject pattern (some '_') (by decide)
      exact ⟨ha.symm.trans hm, hfail.symm.trans hf⟩
  · rintro ⟨hpercent, hunderscore, hwithin⟩
    have hmeant : (likeMatch lower subject pattern escape false = .ok true ↔ (meaning escape pattern).Accepts subject) ∧
        (likeMatch lower subject pattern escape false = .error trailingEscape ↔
          (meaning escape pattern).Fails subject) := by
      by_cases hp : escape = some '%'
      · subst hp
        exact (likeMatch_percent lower subject pattern).mpr (hpercent rfl)
      · obtain ⟨ha, hfail⟩ := likeMatch_readAs lower subject pattern hp
        by_cases hu : escape = some '_'
        · exact ⟨ha.trans (hunderscore hu).1, hfail.trans (hunderscore hu).2⟩
        · rw [readAs_eq hu] at ha hfail
          exact ⟨ha, hfail⟩
    exact ⟨hmeant.1, hmeant.2, fun hs hp hesc => (hbytes hesc hs hp hmeant.1 hmeant.2).mpr (hwithin hs hp hesc)⟩

/-- A `_` behind a `%` takes the text up, and the escape comes next: the text matcher has read that far ahead and
errors, the `bytea` one has nothing left to match. -/
theorem like_lookahead_differs :
    likeMatch id ['x'] ['%', '_', '\\'] (some '\\') false = .error trailingEscape ∧
      likeMatchBytes (some 92) [120] [37, 95, 92] = .ok false := by
  constructor
  · simp [likeMatch_eq, matchText, matchLoop, skipWildcards, Except.map]
  · decide

end Secantus.Like
