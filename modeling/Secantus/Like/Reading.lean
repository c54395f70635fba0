/-
  LIKE (`like_match.rs`): the matcher for text, step for step PostgreSQL's `MatchText`, and the one for `bytea`.

  The text matcher scans behind a `%` only where the character that must come next is found, and an `abort` tells every
  scan around it that no later position can match. Lower-casing is Rust's, a parameter.

  The text matcher against the pattern as it reads it.

  `read` is what a pattern means: escaped characters first, then the wildcards. `readAs` is what `match_text` takes it
  for where the escape is not `%`: behind a `%` every `_` is a wildcard, even where it is the escape. `matchText_judges`
  says that the matcher's answer is right of that reading: true where it generates the text, an error where matching
  reaches a lone escape at its end, and an abort only where neither holds of any end of the text.
-/
import Secantus.Library.Wildcards
import Mathlib.Data.List.Basic

namespace Secantus.Like

abbrev Text := List Char

/-- An SQLSTATE and its message. -/
structure SqlError where
  sqlstate : String
  message : String
  deriving DecidableEq, Repr

def trailingEscape : SqlError := ⟨"22025", "LIKE pattern must not end with escape character"⟩

inductive Outcome where
  | true
  | false
  | abort
  deriving DecidableEq, Repr

/-! ## Text -/

/-- The wildcards behind a `%`: each `_` takes a character, and none is left for one of them where this is `none`. -/
def skipWildcards : Text → Text → Option (Text × Text)
  | t, [] => some (t, [])
  | t, c :: p =>
    if c = '%' then skipWildcards t p
    else if c = '_' then
      match t with
      | [] => none
      | _ :: t => skipWildcards t p
    else some (t, c :: p)

theorem skipWildcards_length {t p t' p' : Text} (h : skipWildcards t p = some (t', p')) : p'.length ≤ p.length := by
  induction p generalizing t with
  | nil =>
    cases h
    exact Nat.le_refl _
  | cons c p ih =>
    unfold skipWildcards at h
    split at h
    · exact Nat.le_succ_of_le (ih h)
    · split at h
      · cases t with
        | nil => cases h
        | cons a t => exact Nat.le_succ_of_le (ih h)
      · cases h
        exact Nat.le_refl _

/-- The positions whose character is `first`, until the rest of the pattern does not fail there. -/
def scan (rest : Text → Except SqlError Outcome) (first : Char) : Text → Except SqlError Outcome
  | [] => .ok .abort
  | c :: t =>
    if c = first then do
      let m ← rest (c :: t)
      if m ≠ .false then return m else scan rest first t
    else scan rest first t

/-- The text has ended: only `%`s may be left. -/
def atEnd (p : Text) : Outcome := if p.dropWhile (· = '%') = [] then .true else .abort

mutual

def matchText (esc : Option Char) (t p : Text) : Except SqlError Outcome :=
  if p = ['%'] then .ok .true else matchLoop esc t p
termination_by (p.length, 1)

/-- The loop of `match_text`. -/
def matchLoop (esc : Option Char) (t p : Text) : Except SqlError Outcome :=
  match t, p with
  | [], p => .ok (atEnd p)
  | _ :: _, [] => .ok .false
  | c :: t, q :: p =>
    if some q = esc then
      match p with
      | [] => .error trailingEscape
      | lit :: p => if lit ≠ c then .ok .false else matchLoop esc t p
    else if q = '%' then
      match _h : skipWildcards (c :: t) p with
      | none => .ok .abort
      | some (_, []) => .ok .true
      | some (t, f :: p) =>
        match if some f = esc then p.head? else some f with
        | none => .error trailingEscape
        | some first => scan (fun t => matchText esc t (f :: p)) first t
    else if q = '_' then matchLoop esc t p
    else if q ≠ c then .ok .false
    else matchLoop esc t p
termination_by (p.length, 0)
decreasing_by
  all_goals simp_wf
  all_goals first
    | have hskip := skipWildcards_length _h
      simp only [List.length_cons] at hskip
      omega
    | omega

end

/-- The text a match folds first: lower-cased where it is insensitive. -/
def fold (lower : Text → Text) (insensitive : Bool) (s : Text) : Text := if insensitive then lower s else s

/-- The escape as folded: the first character of its lower case. -/
def foldEscape (lower : Text → Text) (insensitive : Bool) (e : Char) : Char :=
  if insensitive then (lower [e]).headD e else e

def likeMatch (lower : Text → Text) (subject pattern : Text) (escape : Option Char) (insensitive : Bool) :
    Except SqlError Bool := do
  let m ← matchText (escape.map (foldEscape lower insensitive)) (fold lower insensitive subject)
    (fold lower insensitive pattern)
  return m = .true

/-! ## Bytes -/

/-- The answer at the first end of the subject that does not fail, the longest one first. -/
def anyEnd (rest : List UInt8 → Except SqlError Bool) : List UInt8 → Except SqlError Bool
  | [] => rest []
  | b :: s => do
    if ← rest (b :: s) then return true else anyEnd rest s

def likeMatchBytes (escape : Option UInt8) (subject pattern : List UInt8) : Except SqlError Bool :=
  match pattern with
  | [] => .ok subject.isEmpty
  | first :: rest =>
    if some first = escape then
      match rest with
      | [] => if subject.isEmpty then .ok false else .error trailingEscape
      | literal :: rest =>
        match subject with
        | [] => .ok false
        | b :: tail => if b = literal then likeMatchBytes escape tail rest else .ok false
    else if first = 37 then anyEnd (fun s => likeMatchBytes escape s rest) subject
    else
      match subject with
      | [] => .ok false
      | b :: tail => if first = 95 ∨ b = first then likeMatchBytes escape tail rest else .ok false

open Secantus.Library.Wildcards

/-- A pattern: its tokens, and whether a lone escape follows them. -/
structure Reading (α : Type*) where
  tokens : List (Token α)
  dangling : Bool

namespace Reading

variable {α : Type*}

def empty : Reading α := ⟨[], false⟩

/-- Nothing but a lone escape. -/
def lone : Reading α := ⟨[], true⟩

def cons (t : Token α) (r : Reading α) : Reading α := ⟨t :: r.tokens, r.dangling⟩

/-- The text is one the pattern generates; a lone escape generates nothing. -/
def Accepts (r : Reading α) (s : List α) : Prop := r.dangling = false ∧ Generates r.tokens s

/-- Matching reaches the lone escape. -/
def Fails (r : Reading α) (s : List α) : Prop := r.dangling = true ∧ Reaches r.tokens s

/-- Matching reaches the lone escape with text left to match. -/
def FailsWithin (r : Reading α) (s : List α) : Prop := r.dangling = true ∧ Leaves r.tokens s

end Reading

/-- What a pattern means, under an escape. -/
def read {α : Type*} [DecidableEq α] (percent underscore : α) (esc : Option α) : List α → Reading α
  | [] => .empty
  | q :: p =>
    if some q = esc then
      match p with
      | [] => .lone
      | c :: p => (read percent underscore esc p).cons (.lit c)
    else (read percent underscore esc p).cons (if q = percent then .many else if q = underscore then .one else .lit q)

/-- What a text pattern means. -/
def meaning (esc : Option Char) (p : Text) : Reading Char := read '%' '_' esc p

/-- What `match_text` takes a pattern for, `behind` a `%` or not. -/
def readAs (esc : Option Char) (behind : Bool) : Text → Reading Char
  | [] => .empty
  | q :: p =>
    if behind = true ∧ q = '_' then (readAs esc true p).cons .one
    else if some q = esc then
      match p with
      | [] => .lone
      | c :: p => (readAs esc false p).cons (.lit c)
    else if q = '%' then (readAs esc true p).cons .many
    else if q = '_' then (readAs esc false p).cons .one
    else (readAs esc false p).cons (.lit q)

example (esc : Option Char) (behind : Bool) : readAs esc behind [] = .empty := by rw [readAs.eq_def]

/-! ## Reading one step -/

section Steps

variable {esc : Option Char} {behind : Bool} {q : Char} {p : Text}

theorem readAs_underscore : readAs esc true ('_' :: p) = (readAs esc true p).cons .one := by
  rw [readAs.eq_def]
  dsimp only
  rw [if_pos ⟨rfl, rfl⟩]

theorem readAs_percent (hesc : esc ≠ some '%') : readAs esc behind ('%' :: p) = (readAs esc true p).cons .many := by
  rw [readAs.eq_def]
  dsimp only
  rw [if_neg fun h => absurd h.2 (by decide), if_neg (Ne.symm hesc), if_pos rfl]

theorem readAs_lone (he : some q = esc) : readAs esc false [q] = .lone := by
  unfold readAs
  rw [if_neg fun h => Bool.false_ne_true h.1, if_pos he]

theorem readAs_escaped (he : some q = esc) (c : Char) :
    readAs esc false (q :: c :: p) = (readAs esc false p).cons (.lit c) := by
  rw [readAs.eq_def]
  dsimp only
  rw [if_neg fun h => Bool.false_ne_true h.1, if_pos he]

theorem readAs_one (he : some '_' ≠ esc) : readAs esc false ('_' :: p) = (readAs esc false p).cons .one := by
  rw [readAs.eq_def]
  dsimp only
  rw [if_neg fun h => Bool.false_ne_true h.1, if_neg he, if_neg (by decide), if_pos rfl]

theorem readAs_lit (he : some q ≠ esc) (hp : q ≠ '%') (hu : q ≠ '_') :
    readAs esc false (q :: p) = (readAs esc false p).cons (.lit q) := by
  rw [readAs.eq_def]
  dsimp only
  rw [if_neg fun h => Bool.false_ne_true h.1, if_neg he, if_neg hp, if_neg hu]

theorem readAs_behind (hu : q ≠ '_') : readAs esc true (q :: p) = readAs esc false (q :: p) := by
  rw [readAs.eq_def, readAs.eq_def esc false]
  dsimp only
  rw [if_neg (show ¬ (true = true ∧ q = '_') from fun h => hu h.2),
    if_neg (show ¬ (false = true ∧ q = '_') from fun h => hu h.2)]

end Steps

theorem readAs_eq {esc : Option Char} (hu : esc ≠ some '_') (behind : Bool) (p : Text) :
    readAs esc behind p = meaning esc p := by
  induction hn : p.length using Nat.strong_induction_on generalizing p behind with
  | _ n ih =>
    subst hn
    cases p with
    | nil => rfl
    | cons q p =>
      have hrest : ∀ b, readAs esc b p = meaning esc p := fun b => ih p.length (Nat.lt_succ_self _) b p rfl
      unfold readAs meaning read
      by_cases hesc : some q = esc
      · have hq : q ≠ '_' := by
          rintro rfl
          exact hu hesc.symm
        rw [if_neg (fun h => hq h.2), if_pos hesc, if_pos hesc]
        cases p with
        | nil => rfl
        | cons c p =>
          show (readAs esc false p).cons _ = (meaning esc p).cons _
          rw [ih p.length (Nat.lt_succ_of_lt (Nat.lt_succ_self _)) false p rfl]
      · rw [if_neg hesc, if_neg hesc, hrest, hrest]
        by_cases hq : q = '_'
        · subst hq
          simp [meaning]
        · rw [if_neg fun h => hq h.2]
          by_cases hq' : q = '%'
          · simp [hq', meaning]
          · simp [hq', hq, meaning]

/-! ## What an answer says of a pattern -/

/-- Neither accepted nor an error. -/
def Reading.Rejects (r : Reading Char) (s : Text) : Prop := ¬ r.Accepts s ∧ ¬ r.Fails s

/-- An answer is right of the pattern `r` on the text `t`. -/
def Judges (r : Reading Char) (t : Text) : Except SqlError Outcome → Prop
  | .error e => e = trailingEscape ∧ r.Fails t
  | .ok .true => r.Accepts t
  | .ok .false => r.Rejects t
  | .ok .abort => ∀ s, s <:+ t → r.Rejects s

theorem Reading.not_fails_of_accepts {r : Reading Char} {s : Text} (h : r.Accepts s) (h' : r.Fails s) : False :=
  absurd h.1 (by simp [h'.1])

theorem not_reaches_nil (ts : List (Token Char)) : ¬ Reaches ts [] := by
  induction ts with
  | nil => exact fun h => h rfl
  | cons t ts ih =>
    cases t with
    | lit c =>
      rintro ⟨r, hr, -⟩
      cases hr
    | one =>
      rintro ⟨c, r, hr, -⟩
      cases hr
    | many =>
      rintro (⟨r, hr, h⟩ | ⟨h, -⟩)
      · exact ih (List.suffix_nil.mp hr ▸ h)
      · exact h rfl

theorem Judges.lit {r : Reading Char} {t : Text} {answer : Except SqlError Outcome} (h : Judges r t answer) (c : Char) :
    Judges (r.cons (.lit c)) (c :: t) answer := by
  have haccepts : ∀ s, (r.cons (.lit c)).Accepts s → ∃ s', s = c :: s' ∧ r.Accepts s' := by
    rintro s ⟨hd, s', hs, hg⟩
    exact ⟨s', hs, hd, hg⟩
  have hfails : ∀ s, (r.cons (.lit c)).Fails s → ∃ s', s = c :: s' ∧ r.Fails s' := by
    rintro s ⟨hd, s', hs, hg⟩
    exact ⟨s', hs, hd, hg⟩
  match answer, h with
  | .error e, ⟨he, hd, hr⟩ => exact ⟨he, hd, t, rfl, hr⟩
  | .ok .true, ⟨hd, hg⟩ => exact ⟨hd, t, rfl, hg⟩
  | .ok .false, ⟨hna, hnf⟩ =>
    refine ⟨fun ha => ?_, fun hf => ?_⟩
    · obtain ⟨s', hs, ha'⟩ := haccepts _ ha
      cases hs
      exact hna ha'
    · obtain ⟨s', hs, hf'⟩ := hfails _ hf
      cases hs
      exact hnf hf'
  | .ok .abort, h =>
    -- an end that begins with the literal leaves an end of the rest
    have hend : ∀ s s', s <:+ c :: t → s = c :: s' → s' <:+ t := by
      rintro s s' hs rfl
      rcases List.suffix_cons_iff.mp hs with heq | hs
      · cases heq
        exact List.suffix_refl t
      · exact (List.suffix_cons c s').trans hs
    intro s hs
    refine ⟨fun ha => ?_, fun hf => ?_⟩
    · obtain ⟨s', hs', ha'⟩ := haccepts _ ha
      exact (h s' (hend s s' hs hs')).1 ha'
    · obtain ⟨s', hs', hf'⟩ := hfails _ hf
      exact (h s' (hend s s' hs hs')).2 hf'

theorem judges_lit_of_ne {r : Reading Char} {t : Text} {c d : Char} (h : d ≠ c) :
    Judges (r.cons (.lit d)) (c :: t) (.ok .false) := by
  refine ⟨?_, ?_⟩
  · rintro ⟨-, s, hs, -⟩
    exact h (List.cons_eq_cons.mp hs).1.symm
  · rintro ⟨-, s, hs, -⟩
    exact h (List.cons_eq_cons.mp hs).1.symm

theorem Judges.one {r : Reading Char} {t : Text} {answer : Except SqlError Outcome} (h : Judges r t answer) (c : Char) :
    Judges (r.cons .one) (c :: t) answer := by
  have haccepts : ∀ s, (r.cons .one).Accepts s → ∃ a s', s = a :: s' ∧ r.Accepts s' := by
    rintro s ⟨hd, a, s', hs, hg⟩
    exact ⟨a, s', hs, hd, hg⟩
  have hfails : ∀ s, (r.cons .one).Fails s → ∃ a s', s = a :: s' ∧ r.Fails s' := by
    rintro s ⟨hd, a, s', hs, hg⟩
    exact ⟨a, s', hs, hd, hg⟩
  match answer, h with
  | .error e, ⟨he, hd, hr⟩ => exact ⟨he, hd, c, t, rfl, hr⟩
  | .ok .true, ⟨hd, hg⟩ => exact ⟨hd, c, t, rfl, hg⟩
  | .ok .false, ⟨hna, hnf⟩ =>
    refine ⟨fun ha => ?_, fun hf => ?_⟩
    · obtain ⟨a, s', hs, ha'⟩ := haccepts _ ha
      cases hs
      exact hna ha'
    · obtain ⟨a, s', hs, hf'⟩ := hfails _ hf
      cases hs
      exact hnf hf'
  | .ok .abort, h =>
    have hend : ∀ s a s', s <:+ c :: t → s = a :: s' → s' <:+ t := by
      rintro s a s' hs rfl
      rcases List.suffix_cons_iff.mp hs with heq | hs
      · cases heq
        exact List.suffix_refl t
      · exact (List.suffix_cons a s').trans hs
    intro s hs
    refine ⟨fun ha => ?_, fun hf => ?_⟩
    · obtain ⟨a, s', hs', ha'⟩ := haccepts _ ha
      exact (h s' (hend s a s' hs hs')).1 ha'
    · obtain ⟨a, s', hs', hf'⟩ := hfails _ hf
      exact (h s' (hend s a s' hs hs')).2 hf'

/-! ## Behind a `%` -/

/-- Some end of the text is accepted. -/
def Reading.AcceptsEnd (r : Reading Char) (t : Text) : Prop := ∃ s, s <:+ t ∧ r.Accepts s

/-- Matching reaches the lone escape from a `%` with the text `t` left. -/
def Reading.FailsEnd (r : Reading Char) (t : Text) : Prop :=
  r.dangling = true ∧ ((∃ s, s <:+ t ∧ Reaches r.tokens s) ∨
    r.tokens.all Token.isWild = true ∧ ∃ s, s <:+ t ∧ Generates r.tokens s)

/-- An answer behind a `%` is right of the rest `r` of the pattern. -/
def JudgesEnd (r : Reading Char) (t : Text) : Except SqlError Outcome → Prop
  | .error e => e = trailingEscape ∧ r.FailsEnd t
  | .ok .true => r.AcceptsEnd t
  | .ok .false => False
  | .ok .abort => ¬ r.AcceptsEnd t ∧ ¬ r.FailsEnd t

theorem Reading.accepts_many {r : Reading Char} {s : Text} : (r.cons .many).Accepts s ↔ r.AcceptsEnd s := by
  constructor
  · rintro ⟨hd, s', hs, hg⟩
    exact ⟨s', hs, hd, hg⟩
  · rintro ⟨s', hs, hd, hg⟩
    exact ⟨hd, s', hs, hg⟩

theorem Reading.fails_many {r : Reading Char} {s : Text} (h : (r.cons .many).Fails s) : r.FailsEnd s := by
  obtain ⟨hd, h | ⟨-, hw, h⟩⟩ := h
  · exact ⟨hd, .inl h⟩
  · exact ⟨hd, .inr ⟨hw, h⟩⟩

theorem Reading.AcceptsEnd.mono {r : Reading Char} {s t : Text} (h : r.AcceptsEnd s) (hst : s <:+ t) :
    r.AcceptsEnd t := by
  obtain ⟨s', hs', ha⟩ := h
  exact ⟨s', hs'.trans hst, ha⟩

theorem Reading.FailsEnd.mono {r : Reading Char} {s t : Text} (h : r.FailsEnd s) (hst : s <:+ t) : r.FailsEnd t := by
  obtain ⟨hd, ⟨s', hs', hr⟩ | ⟨hw, s', hs', hg⟩⟩ := h
  · exact ⟨hd, .inl ⟨s', hs'.trans hst, hr⟩⟩
  · exact ⟨hd, .inr ⟨hw, s', hs'.trans hst, hg⟩⟩

theorem JudgesEnd.congr {r r' : Reading Char} {t t' : Text} {answer : Except SqlError Outcome}
    (h : JudgesEnd r' t' answer) (ha : r.AcceptsEnd t ↔ r'.AcceptsEnd t') (hf : r.FailsEnd t ↔ r'.FailsEnd t') :
    JudgesEnd r t answer := by
  match answer, h with
  | .error e, ⟨he, h⟩ => exact ⟨he, hf.mpr h⟩
  | .ok .true, h => exact ha.mpr h
  | .ok .abort, ⟨hna, hnf⟩ => exact ⟨fun h => hna (ha.mp h), fun h => hnf (hf.mp h)⟩

theorem JudgesEnd.many {r : Reading Char} {t : Text} {answer : Except SqlError Outcome} (h : JudgesEnd r t answer)
    (ht : t ≠ []) : Judges (r.cons .many) t answer := by
  match answer, h with
  | .error e, ⟨he, hd, h⟩ =>
    refine ⟨he, hd, ?_⟩
    rcases h with h | ⟨hw, h⟩
    · exact .inl h
    · exact .inr ⟨ht, hw, h⟩
  | .ok .true, h => exact Reading.accepts_many.mpr h
  | .ok .abort, ⟨hna, hnf⟩ =>
    intro s hs
    exact ⟨fun ha => hna ((Reading.accepts_many.mp ha).mono hs), fun hf => hnf ((Reading.fails_many hf).mono hs)⟩

theorem Reading.end_many (r : Reading Char) (t : Text) :
    ((r.cons .many).AcceptsEnd t ↔ r.AcceptsEnd t) ∧ ((r.cons .many).FailsEnd t ↔ r.FailsEnd t) := by
  constructor
  · constructor
    · rintro ⟨s, hs, ha⟩
      exact (Reading.accepts_many.mp ha).mono hs
    · rintro ⟨s, hs, ha⟩
      exact ⟨s, hs, Reading.accepts_many.mpr ⟨s, List.suffix_refl s, ha⟩⟩
  · constructor
    · rintro ⟨hd, ⟨s, hs, h⟩ | ⟨hw, s, hs, s', hs', hg⟩⟩
      · exact (Reading.fails_many ⟨hd, h⟩).mono hs
      · exact ⟨hd, .inr ⟨hw, s', hs'.trans hs, hg⟩⟩
    · rintro ⟨hd, ⟨s, hs, h⟩ | ⟨hw, s, hs, hg⟩⟩
      · exact ⟨hd, .inl ⟨s, hs, .inl ⟨s, List.suffix_refl s, h⟩⟩⟩
      · exact ⟨hd, .inr ⟨hw, s, hs, s, List.suffix_refl s, hg⟩⟩

theorem Reading.end_one (r : Reading Char) (c : Char) (t : Text) :
    ((r.cons .one).AcceptsEnd (c :: t) ↔ r.AcceptsEnd t) ∧ ((r.cons .one).FailsEnd (c :: t) ↔ r.FailsEnd t) := by
  have htake : ∀ P : Text → Prop,
      (∃ s, s <:+ c :: t ∧ ∃ a s', s = a :: s' ∧ P s') ↔ ∃ s, s <:+ t ∧ P s := by
    intro P
    rw [exists_suffix_one]
    constructor
    · rintro ⟨a, t', h, hP⟩
      cases h
      exact hP
    · exact fun hP => ⟨c, t, rfl, hP⟩
  have haccepts : ∀ s, (r.cons .one).Accepts s ↔ ∃ a s', s = a :: s' ∧ r.Accepts s' := by
    intro s
    constructor
    · rintro ⟨hd, a, s', hs, hg⟩
      exact ⟨a, s', hs, hd, hg⟩
    · rintro ⟨a, s', hs, hd, hg⟩
      exact ⟨hd, a, s', hs, hg⟩
  constructor
  · unfold AcceptsEnd
    simp only [haccepts]
    exact htake r.Accepts
  · unfold FailsEnd
    exact and_congr_right fun _ => or_congr (htake (Reaches r.tokens)) (and_congr_right fun _ =>
      htake (Generates r.tokens))

theorem Reading.end_one_nil (r : Reading Char) : ¬ (r.cons .one).AcceptsEnd [] ∧ ¬ (r.cons .one).FailsEnd [] := by
  have hnone : ∀ P : Text → Prop, ¬ ∃ s, s <:+ ([] : Text) ∧ ∃ a s', s = a :: s' ∧ P s' := by
    rintro P ⟨s, hs, a, s', rfl, -⟩
    exact absurd (List.suffix_nil.mp hs) (by simp)
  refine ⟨?_, ?_⟩
  · rintro ⟨s, hs, hd, h⟩
    exact hnone _ ⟨s, hs, h⟩
  · rintro ⟨-, h | ⟨-, h⟩⟩
    · exact hnone _ h
    · exact hnone _ h

/-- The wildcards behind a `%`: what is left of the text and the pattern says what they say of both. -/
theorem skipWildcards_spec {esc : Option Char} (hesc : esc ≠ some '%') (t p : Text) :
    match skipWildcards t p with
    | none => ¬ (readAs esc true p).AcceptsEnd t ∧ ¬ (readAs esc true p).FailsEnd t
    | some (t', p') =>
      ((readAs esc true p).AcceptsEnd t ↔ (readAs esc true p').AcceptsEnd t') ∧
        ((readAs esc true p).FailsEnd t ↔ (readAs esc true p').FailsEnd t') ∧
        ∀ c ∈ p'.head?, c ≠ '%' ∧ c ≠ '_' := by
  induction p generalizing t with
  | nil => exact ⟨Iff.rfl, Iff.rfl, by simp⟩
  | cons q p ih =>
    unfold skipWildcards
    by_cases hp : q = '%'
    · subst hp
      rw [if_pos rfl, readAs_percent hesc, ((readAs esc true p).end_many t).1, ((readAs esc true p).end_many t).2]
      exact ih t
    · rw [if_neg hp]
      by_cases hu : q = '_'
      · subst hu
        rw [if_pos rfl, readAs_underscore]
        cases t with
        | nil => exact (readAs esc true p).end_one_nil
        | cons c t =>
          rw [((readAs esc true p).end_one c t).1, ((readAs esc true p).end_one c t).2]
          exact ih t
      · rw [if_neg hu]
        refine ⟨Iff.rfl, Iff.rfl, ?_⟩
        rintro c hc
        obtain rfl : q = c := Option.some.inj hc
        exact ⟨hp, hu⟩

theorem scan_judges {r : Reading Char} {first : Char} {rest : Text → Except SqlError Outcome} {t : Text}
    (h : ∀ s, s <:+ t → Judges (r.cons (.lit first)) s (rest s)) :
    JudgesEnd (r.cons (.lit first)) t (scan rest first t) := by
  have hwild : (r.cons (.lit first)).tokens.all Token.isWild = false := rfl
  have hfails : ∀ t', (r.cons (.lit first)).FailsEnd t' ↔ ∃ s, s <:+ t' ∧ (r.cons (.lit first)).Fails s := by
    intro t'
    constructor
    · rintro ⟨hd, ⟨s, hs, hr⟩ | ⟨hw, -⟩⟩
      · exact ⟨s, hs, hd, hr⟩
      · rw [hwild] at hw
        cases hw
    · rintro ⟨s, hs, hd, hr⟩
      exact ⟨hd, .inl ⟨s, hs, hr⟩⟩
  induction t with
  | nil =>
    refine ⟨?_, ?_⟩
    · rintro ⟨s, hs, -, s', rfl, -⟩
      exact absurd (List.suffix_nil.mp hs) (by simp)
    · rw [hfails]
      rintro ⟨s, hs, -, hr⟩
      exact not_reaches_nil _ (List.suffix_nil.mp hs ▸ hr)
  | cons c t ih =>
    have hnext := ih fun s hs => h s (hs.trans (List.suffix_cons c t))
    -- a position that is rejected is one the scan may pass by
    have hpass : (r.cons (.lit first)).Rejects (c :: t) →
        JudgesEnd (r.cons (.lit first)) (c :: t) (scan rest first t) := by
      rintro ⟨hna, hnf⟩
      match scan rest first t, hnext with
      | .error e, ⟨he, hf⟩ => exact ⟨he, hf.mono (List.suffix_cons c t)⟩
      | .ok .true, ha => exact Reading.AcceptsEnd.mono ha (List.suffix_cons c t)
      | .ok .abort, ⟨ha, hf⟩ =>
        refine ⟨?_, ?_⟩
        · rintro ⟨s, hs, hs'⟩
          rcases List.suffix_cons_iff.mp hs with rfl | hs
          · exact hna hs'
          · exact ha ⟨s, hs, hs'⟩
        · rw [hfails]
          rintro ⟨s, hs, hs'⟩
          rcases List.suffix_cons_iff.mp hs with rfl | hs
          · exact hnf hs'
          · exact hf ((hfails t).mpr ⟨s, hs, hs'⟩)
    have hhere := h (c :: t) (List.suffix_refl _)
    unfold scan
    by_cases hc : c = first
    · rw [if_pos hc]
      match rest (c :: t), hhere with
      | .error e, ⟨he, hf⟩ => exact ⟨he, (hfails _).mpr ⟨c :: t, List.suffix_refl _, hf⟩⟩
      | .ok .true, ha => exact ⟨c :: t, List.suffix_refl _, ha⟩
      | .ok .false, hr => exact hpass hr
      | .ok .abort, hr =>
        refine ⟨?_, ?_⟩
        · rintro ⟨s, hs, hs'⟩
          exact (hr s hs).1 hs'
        · show ¬ Reading.FailsEnd _ _
          rw [hfails]
          rintro ⟨s, hs, hs'⟩
          exact (hr s hs).2 hs'
    · rw [if_neg hc]
      exact hpass (judges_lit_of_ne (Ne.symm hc))

/-! ## The matcher -/

theorem readAs_generates_nil {esc : Option Char} (behind : Bool) (p : Text)
    (hd : (readAs esc behind p).dangling = false) (hg : Generates (readAs esc behind p).tokens []) :
    p.dropWhile (· = '%') = [] := by
  have hlit : ∀ (r : Reading Char) (c : Char), ¬ Generates (r.cons (.lit c)).tokens [] := by
    rintro r c ⟨s, hs, -⟩
    cases hs
  have hone : ∀ r : Reading Char, ¬ Generates (r.cons .one).tokens [] := by
    rintro r ⟨c, s, hs, -⟩
    cases hs
  induction p generalizing behind with
  | nil => rfl
  | cons q p ih =>
    by_cases hb : behind = true ∧ q = '_'
    · obtain ⟨rfl, rfl⟩ := hb
      rw [readAs_underscore] at hg
      exact absurd hg (hone _)
    · have hfront : readAs esc behind (q :: p) = readAs esc false (q :: p) := by
        cases behind with
        | false => rfl
        | true => exact readAs_behind fun h => hb ⟨rfl, h⟩
      rw [hfront] at hd hg
      by_cases he : some q = esc
      · cases p with
        | nil =>
          rw [readAs_lone he] at hd
          cases hd
        | cons c p =>
          rw [readAs_escaped he] at hg
          exact absurd hg (hlit _ _)
      · by_cases hp : q = '%'
        · subst hp
          rw [readAs_percent (Ne.symm he)] at hd hg
          obtain ⟨s, hs, hg⟩ := hg
          rw [List.suffix_nil.mp hs] at hg
          rw [List.dropWhile_cons_of_pos (by simp)]
          exact ih true hd hg
        · by_cases hu : q = '_'
          · subst hu
            rw [readAs_one he] at hg
            exact absurd hg (hone _)
          · rw [readAs_lit he hp hu] at hg
            exact absurd hg (hlit _ _)

theorem generates_nil_of_percents {esc : Option Char} (hesc : esc ≠ some '%') (behind : Bool) {p : Text}
    (h : p.dropWhile (· = '%') = []) : (readAs esc behind p).Accepts [] := by
  induction p generalizing behind with
  | nil => exact ⟨rfl, rfl⟩
  | cons q p ih =>
    by_cases hq : q = '%'
    · subst hq
      rw [List.dropWhile_cons_of_pos (by simp)] at h
      rw [readAs_percent hesc]
      exact Reading.accepts_many.mpr ⟨[], List.suffix_refl [], ih true h⟩
    · rw [List.dropWhile_cons_of_neg (by simp [hq])] at h
      cases h

theorem judges_atEnd {esc : Option Char} (hesc : esc ≠ some '%') (p : Text) :
    Judges (readAs esc false p) [] (.ok (atEnd p)) := by
  unfold atEnd
  split
  · rename_i h
    exact generates_nil_of_percents hesc false h
  · rename_i h
    intro s hs
    rw [List.suffix_nil.mp hs]
    exact ⟨fun ha => h (readAs_generates_nil false p ha.1 ha.2), fun hf => not_reaches_nil _ hf.2⟩

theorem judges_matchText {esc : Option Char} (hesc : esc ≠ some '%') {t p : Text}
    (h : Judges (readAs esc false p) t (matchLoop esc t p)) : Judges (readAs esc false p) t (matchText esc t p) := by
  unfold matchText
  split
  · rename_i hp
    subst hp
    rw [readAs_percent hesc]
    exact Reading.accepts_many.mpr ⟨[], List.nil_suffix, rfl, rfl⟩
  · exact h

/-- Behind the wildcards: the scan for what comes next. -/
theorem judges_behind {esc : Option Char} (hesc : esc ≠ some '%') {t : Text} {f : Char} {p : Text}
    (hf : f ≠ '%' ∧ f ≠ '_') (h : ∀ s, Judges (readAs esc false (f :: p)) s (matchLoop esc s (f :: p))) :
    JudgesEnd (readAs esc true (f :: p)) t
      (match if some f = esc then p.head? else some f with
      | none => .error trailingEscape
      | some first => scan (fun s => matchText esc s (f :: p)) first t) := by
  have hjudges : ∀ s, Judges (readAs esc false (f :: p)) s (matchText esc s (f :: p)) := fun s =>
    judges_matchText hesc (h s)
  rw [readAs_behind hf.2]
  by_cases he : some f = esc
  · rw [if_pos he]
    cases p with
    | nil =>
      rw [readAs_lone he]
      exact ⟨rfl, rfl, .inr ⟨rfl, [], List.nil_suffix, rfl⟩⟩
    | cons c p =>
      rw [readAs_escaped he] at hjudges ⊢
      exact scan_judges fun s _ => hjudges s
  · rw [if_neg he]
    rw [readAs_lit he hf.1 hf.2] at hjudges ⊢
    exact scan_judges fun s _ => hjudges s

/-- The loop's answer is right of the pattern as the matcher reads it. -/
theorem matchLoop_judges {esc : Option Char} (hesc : esc ≠ some '%') (t p : Text) :
    Judges (readAs esc false p) t (matchLoop esc t p) := by
  induction hn : p.length using Nat.strong_induction_on generalizing t p with
  | _ n ih =>
    subst hn
    cases t with
    | nil =>
      rw [matchLoop]
      exact judges_atEnd hesc p
    | cons c t =>
      cases p with
      | nil =>
        rw [matchLoop]
        refine ⟨?_, ?_⟩
        · rintro ⟨-, hg⟩
          cases hg
        · rintro ⟨hd, -⟩
          cases hd
      | cons q p =>
        rw [matchLoop.eq_def]
        dsimp only
        by_cases he : some q = esc
        · -- an escaped character
          rw [if_pos he]
          cases p with
          | nil =>
            rw [readAs_lone he]
            exact ⟨rfl, rfl, List.cons_ne_nil c t⟩
          | cons l p =>
            rw [readAs_escaped he]
            dsimp only
            by_cases hl : l = c
            · rw [if_neg (not_not.mpr hl), hl]
              exact (ih p.length (Nat.lt_succ_of_lt (Nat.lt_succ_self _)) t p rfl).lit c
            · rw [if_pos hl]
              exact judges_lit_of_ne hl
        · rw [if_neg he]
          by_cases hp : q = '%'
          · -- a run of wildcards, then the scan
            subst hp
            have hspec := skipWildcards_spec hesc (c :: t) p
            have hlen := @skipWildcards_length (c :: t) p
            rw [if_pos rfl, readAs_percent hesc]
            refine JudgesEnd.many ?_ (List.cons_ne_nil c t)
            split
            · rename_i hskip
              rw [hskip] at hspec
              exact hspec
            · rename_i t' hskip
              rw [hskip] at hspec
              refine hspec.1.mpr ⟨[], List.nil_suffix, rfl, rfl⟩
            · rename_i t' f p' hskip
              rw [hskip] at hspec
              have hbehind := judges_behind hesc (t := t') (hspec.2.2 f rfl) fun s =>
                ih (f :: p').length (Nat.lt_succ_of_le (hlen hskip)) s (f :: p') rfl
              exact hbehind.congr hspec.1 hspec.2.1
          · rw [if_neg hp]
            by_cases hu : q = '_'
            · subst hu
              rw [if_pos rfl, readAs_one he]
              exact (ih p.length (by simp) t p rfl).one c
            · rw [if_neg hu, readAs_lit he hp hu]
              by_cases hq : q = c
              · rw [if_neg (not_not.mpr hq), hq]
                exact (ih p.length (by simp) t p rfl).lit c
              · rw [if_pos hq]
                exact judges_lit_of_ne hq

/-- The matcher's answer is right of the pattern as it reads it. -/
theorem matchText_judges {esc : Option Char} (hesc : esc ≠ some '%') (t p : Text) :
    Judges (readAs esc false p) t (matchText esc t p) := judges_matchText hesc (matchLoop_judges hesc t p)

end Secantus.Like
