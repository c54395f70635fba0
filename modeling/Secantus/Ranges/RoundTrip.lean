/-
  The text of ranges and multiranges (range.rs of secantus-pgplan) and the reading of it back.

  Inside the brackets a bound is quoted when it is empty or has a character the reader acts on; a quote is doubled
  and a backslash escaped. The reader of literals and the splitter of multiranges each keep track of the quotes on
  their own.

  * `parseLiteral_render`: a range is read back from its text;
  * `splitMembers_renderMultirange`: a multirange's text splits into those of its members.
-/
import Secantus.Ranges.Range

namespace Secantus.Ranges.Literal

open Secantus PgNumeric

/-! ## Rendering -/

/-- The characters for which a bound is quoted. -/
def isSpecial (c : Char) : Bool :=
  c = ',' || c = '\"' || c = '\\' || c = '(' || c = ')' || c = '[' || c = ']' || isAsciiWhitespace c

def escapeChar (c : Char) : Text :=
  if c = '\"' then ['\"', '\"'] else if c = '\\' then ['\\', '\\'] else [c]

def needsQuotes (t : Text) : Bool := t.isEmpty || t.any isSpecial

def quoteBound : Option Text → Text
  | none => []
  | some t => if needsQuotes t then '\"' :: t.flatMap escapeChar ++ ['\"'] else t

def render (r : Range Text) : Text :=
  if r.empty then "empty".toList
  else
    (if r.lowerInc then '[' else '(') :: quoteBound r.lower ++ ',' :: quoteBound r.upper ++
      [if r.upperInc then ']' else ')']

def renderMultirange (members : List (Range Text)) : Text := '{' :: List.intercalate [','] (members.map render) ++ ['}']

/-! ## Splitting a multirange -/

def badMultirange (text : Text) : Error :=
  .invalidText s!"malformed multirange literal: \"{String.ofList (trim text)}\""

/-- The members between the commas outside of quotes and brackets. -/
def scanMembers (depth : ℤ) (quoted : Bool) (cur : Text) : Text → Option (List Text)
  | [] => if depth ≠ 0 ∨ quoted then none else some [cur]
  | c :: cs =>
    if c = '\"' then scanMembers depth (!quoted) (cur ++ [c]) cs
    else if c = '\\' && quoted then
      match cs with
      | d :: rest => scanMembers depth quoted (cur ++ [c, d]) rest
      | [] => scanMembers depth quoted (cur ++ [c]) []
    else if (c = '[' || c = '(') && !quoted then scanMembers (depth + 1) quoted (cur ++ [c]) cs
    else if (c = ']' || c = ')') && !quoted then scanMembers (depth - 1) quoted (cur ++ [c]) cs
    else if c = ',' && !quoted && depth = 0 then (scanMembers depth quoted [] cs).map (cur :: ·)
    else scanMembers depth quoted (cur ++ [c]) cs

example (cur : Text) : scanMembers 0 false cur [] = some [cur] := by
  rw [scanMembers.eq_def]
  rfl

def splitMembers (text : Text) : Except Error (List Text) :=
  let t := trim text
  if t.head? ≠ some '{' ∨ t.getLast? ≠ some '}' then .error (badMultirange text)
  else
    let body := (t.drop 1).dropLast
    if (trim body).isEmpty then .ok []
    else
      match scanMembers 0 false [] body with
      | some members => .ok members
      | none => .error (badMultirange text)

/-! ## Reading a bound -/

/-- A character that is neither a quote nor a backslash, between quotes or not special, is the bound's. -/
theorem splitParts_push {quoted : Bool} {c : Char} (hquote : c ≠ '\"') (hslash : c ≠ '\\')
    (h : quoted = true ∨ isSpecial c = false) (seen : Bool) (cur rest : Text) :
    splitParts quoted seen cur (c :: rest) = splitParts quoted seen (cur ++ [c]) rest := by
  have hcomma : (decide (c = ',') && !quoted) = false := by
    rcases h with rfl | h
    · simp
    · simp only [isSpecial, Bool.or_eq_false_iff] at h
      simp [h.1.1.1.1.1.1.1]
  have hspace : (!quoted && isAsciiWhitespace c) = false := by
    rcases h with rfl | h
    · simp
    · simp only [isSpecial, Bool.or_eq_false_iff] at h
      simp [h.2]
  rw [splitParts.eq_def]
  simp only [if_neg hquote, if_neg hslash, hcomma, hspace, Bool.false_eq_true, if_false]

theorem isSpecial_quote : isSpecial '\"' = true := by decide

theorem isSpecial_slash : isSpecial '\\' = true := by decide

theorem splitParts_plain {t : Text} (h : t.any isSpecial = false) (seen : Bool) (cur rest : Text) :
    splitParts false seen cur (t ++ rest) = splitParts false seen (cur ++ t) rest := by
  induction t generalizing cur with
  | nil => rw [List.nil_append, List.append_nil]
  | cons c t ih =>
    rw [List.any_cons, Bool.or_eq_false_iff] at h
    obtain ⟨hc, ht⟩ := h
    have hquote : c ≠ '\"' := by
      rintro rfl
      exact absurd hc (by simp [isSpecial_quote])
    have hslash : c ≠ '\\' := by
      rintro rfl
      exact absurd hc (by simp [isSpecial_slash])
    rw [List.cons_append, splitParts_push hquote hslash (.inr hc), ih ht, List.append_assoc]
    rfl

theorem splitParts_quoted (t : Text) (cur rest : Text) (h : rest.head? ≠ some '\"') :
    splitParts true true cur (t.flatMap escapeChar ++ '\"' :: rest) = splitParts false true (cur ++ t) rest := by
  induction t generalizing cur with
  | nil =>
    rw [List.flatMap_nil, List.nil_append, List.append_nil, splitParts.eq_def]
    cases rest with
    | nil => rfl
    | cons d rest =>
      have hd : d ≠ '\"' := fun hd => h (by rw [hd]; rfl)
      simp [hd]
  | cons c t ih =>
    have hstep : splitParts true true cur (escapeChar c ++ (t.flatMap escapeChar ++ '\"' :: rest)) =
        splitParts true true (cur ++ [c]) (t.flatMap escapeChar ++ '\"' :: rest) := by
      unfold escapeChar
      by_cases hquote : c = '\"'
      · rw [if_pos hquote, hquote]
        rfl
      · by_cases hslash : c = '\\'
        · rw [if_neg hquote, if_pos hslash, hslash]
          rfl
        · rw [if_neg hquote, if_neg hslash, List.singleton_append, splitParts_push hquote hslash (.inl rfl)]
    rw [List.flatMap_cons, List.append_assoc, hstep, ih, List.append_assoc]
    rfl

theorem splitParts_comma (seen : Bool) (cur rest : Text) :
    splitParts false seen cur (',' :: rest) = (cur, seen) :: splitParts false false [] rest := by
  rw [splitParts.eq_def]
  rfl

/-- What the reader makes of a bound's text: its characters and whether it was quoted. -/
def part : Option Text → Text × Bool
  | none => ([], false)
  | some t => (t, needsQuotes t)

theorem partBound_part (b : Option Text) : partBound (part b) = b := by
  cases b with
  | none => rfl
  | some t =>
    unfold partBound part needsQuotes
    cases t with
    | nil => rfl
    | cons c t => rfl

theorem any_isSpecial_of_needsQuotes {t : Text} (h : ¬needsQuotes t = true) : t.any isSpecial = false := by
  unfold needsQuotes at h
  rw [Bool.not_eq_true, Bool.or_eq_false_iff] at h
  exact h.2

theorem splitParts_bound (b : Option Text) (rest : Text) (h : rest.head? ≠ some '\"') :
    splitParts false false [] (quoteBound b ++ rest) = splitParts false (part b).2 (part b).1 rest := by
  cases b with
  | none => rfl
  | some t =>
    unfold quoteBound part
    dsimp only
    split
    · next hq =>
      have hopen : splitParts false false [] ('\"' :: (t.flatMap escapeChar ++ '\"' :: rest)) =
          splitParts true true [] (t.flatMap escapeChar ++ '\"' :: rest) := by
        rw [splitParts.eq_def]
        cases t.flatMap escapeChar ++ '\"' :: rest with
        | nil => rfl
        | cons d ds => rfl
      show splitParts false false [] ('\"' :: (t.flatMap escapeChar ++ ['\"'] ++ rest)) = _
      rw [hq, List.append_assoc, List.singleton_append, hopen, splitParts_quoted t [] rest h, List.nil_append]
    · next hq =>
      rw [Bool.not_eq_true] at hq
      rw [hq, splitParts_plain (any_isSpecial_of_needsQuotes (by simp [hq])), List.nil_append]

theorem trim_ends {c d : Char} (mid : Text) (hc : isWhiteSpace c = false) (hd : isWhiteSpace d = false) :
    trim (c :: (mid ++ [d])) = c :: (mid ++ [d]) := by
  unfold trim
  rw [List.dropWhile_cons_of_neg (by simp [hc]), List.rdropWhile_eq_self_iff]
  intro hne
  have hlast : (c :: (mid ++ [d])).getLast hne = d := by
    rw [List.getLast_cons (by simp), List.getLast_concat]
  rw [hlast, hd]
  exact Bool.false_ne_true

theorem trim_cons_isEmpty {c : Char} (hc : isWhiteSpace c = false) (t : Text) : (trim (c :: t)).isEmpty = false := by
  unfold trim
  rw [List.dropWhile_cons_of_neg (by simp [hc]), Bool.eq_false_iff, ne_eq, List.isEmpty_iff, List.rdropWhile_eq_nil_iff]
  intro hall
  exact absurd (hall c List.mem_cons_self) (by simp [hc])

theorem render_eq {r : Range Text} (h : r.empty = false) : render r =
    (if r.lowerInc then '[' else '(') :: (quoteBound r.lower ++ ',' :: quoteBound r.upper ++ [if r.upperInc then ']' else ')']) := by
  unfold render
  rw [h]
  rfl

theorem brackets_ends (lowerInc upperInc : Bool) (mid : Text) :
    brackets ((if lowerInc then '[' else '(') :: (mid ++ [if upperInc then ']' else ')'])) = some (lowerInc, upperInc) := by
  have hlast : ∀ c d : Char, (c :: (mid ++ [d])).getLast? = some d := by
    intro c d
    rw [← List.cons_append, List.getLast?_append]
    rfl
  unfold brackets
  rw [hlast, List.head?_cons]
  cases lowerInc with
  | true => cases upperInc <;> rfl
  | false => cases upperInc <;> rfl

/-- A range is read back from its text; of an empty one only that it is empty. -/
theorem parseLiteral_render (r : Range Text) :
    parseLiteral (render r) = .ok (if r.empty then Range.none else r) := by
  cases h : r.empty with
  | true =>
    unfold render
    rw [h]
    rfl
  | false =>
    have hws : ∀ b : Bool, isWhiteSpace (if b then '[' else '(') = false ∧ isWhiteSpace (if b then ']' else ')') = false := by
      decide
    have hlow : ∀ b : Bool, ((if b then '[' else '(') : Char).toLower ≠ 'e' := by decide
    have hempty : ∀ mid : Text, ((if r.lowerInc then '[' else '(') :: mid).map Char.toLower ≠ "empty".toList := by
      intro mid hmid
      exact hlow r.lowerInc (List.cons.inj hmid).1
    have hbody : (((if r.lowerInc then '[' else '(') :: (quoteBound r.lower ++ ',' :: quoteBound r.upper ++
        [if r.upperInc then ']' else ')'])).drop 1).dropLast = quoteBound r.lower ++ ',' :: quoteBound r.upper := by
      rw [List.drop_one, List.tail_cons, List.dropLast_concat]
    have hparts : splitParts false false [] (quoteBound r.lower ++ ',' :: quoteBound r.upper) = [part r.lower, part r.upper] := by
      have hupper := splitParts_bound r.upper [] (by simp)
      rw [List.append_nil] at hupper
      rw [splitParts_bound r.lower _ (by simp), splitParts_comma, hupper]
      rfl
    unfold parseLiteral
    rw [render_eq h, trim_ends _ (hws r.lowerInc).1 (hws r.upperInc).2]
    dsimp only
    rw [if_neg (hempty _), brackets_ends, hbody, hparts]
    dsimp only
    have hr : (⟨false, r.lower, r.upper, r.lowerInc, r.upperInc⟩ : Range Text) = r := by rw [← h]
    rw [partBound_part, partBound_part, hr, if_neg Bool.false_ne_true]

/-! ## Splitting a multirange's text -/

theorem scanMembers_quote (depth : ℤ) (quoted : Bool) (cur rest : Text) :
    scanMembers depth quoted cur ('\"' :: rest) = scanMembers depth (!quoted) (cur ++ ['\"']) rest := by
  rw [scanMembers.eq_def]
  rfl

/-- A character that neither opens nor closes anything, and a comma inside the brackets, stays in its member. -/
theorem scanMembers_push {depth : ℤ} {c : Char} (h : isSpecial c = false ∨ c = ',' ∧ depth ≠ 0) (cur rest : Text) :
    scanMembers depth false cur (c :: rest) = scanMembers depth false (cur ++ [c]) rest := by
  rw [scanMembers.eq_def]
  rcases h with h | ⟨rfl, hdepth⟩
  · simp only [isSpecial, Bool.or_eq_false_iff, decide_eq_false_iff_not] at h
    obtain ⟨⟨⟨⟨⟨⟨⟨hcomma, hquote⟩, hslash⟩, hopen⟩, hclose⟩, hopen'⟩, hclose'⟩, -⟩ := h
    simp [hcomma, hquote, hslash, hopen, hclose, hopen', hclose']
  · simp [hdepth]

theorem scanMembers_plain {t : Text} (h : t.any isSpecial = false) (depth : ℤ) (cur rest : Text) :
    scanMembers depth false cur (t ++ rest) = scanMembers depth false (cur ++ t) rest := by
  induction t generalizing cur with
  | nil => rw [List.nil_append, List.append_nil]
  | cons c t ih =>
    rw [List.any_cons, Bool.or_eq_false_iff] at h
    rw [List.cons_append, scanMembers_push (.inl h.1), ih h.2, List.append_assoc]
    rfl

/-- Between the quotes nothing counts but the quote and the backslash, which come in pairs. -/
theorem scanMembers_quoted (t : Text) (depth : ℤ) (cur rest : Text) :
    scanMembers depth true cur (t.flatMap escapeChar ++ rest) = scanMembers depth true (cur ++ t.flatMap escapeChar) rest := by
  induction t generalizing cur with
  | nil => rw [List.flatMap_nil, List.nil_append, List.append_nil]
  | cons c t ih =>
    have hstep : scanMembers depth true cur (escapeChar c ++ (t.flatMap escapeChar ++ rest)) =
        scanMembers depth true (cur ++ escapeChar c) (t.flatMap escapeChar ++ rest) := by
      unfold escapeChar
      by_cases hquote : c = '\"'
      · rw [if_pos hquote, List.cons_append, List.singleton_append, scanMembers_quote, scanMembers_quote, List.append_assoc]
        rfl
      · by_cases hslash : c = '\\'
        · rw [if_neg hquote, if_pos hslash, List.cons_append, scanMembers.eq_def]
          rfl
        · rw [if_neg hquote, if_neg hslash, List.singleton_append, scanMembers.eq_def]
          simp [hquote, hslash]
    rw [List.flatMap_cons, List.append_assoc, hstep, ih, List.append_assoc]

theorem scanMembers_bound (b : Option Text) (depth : ℤ) (cur rest : Text) :
    scanMembers depth false cur (quoteBound b ++ rest) = scanMembers depth false (cur ++ quoteBound b) rest := by
  cases b with
  | none => rw [quoteBound, List.nil_append, List.append_nil]
  | some t =>
    unfold quoteBound
    dsimp only
    split
    · rw [List.cons_append, List.cons_append, List.append_assoc, scanMembers_quote]
      show scanMembers depth true (cur ++ ['\"']) (t.flatMap escapeChar ++ '\"' :: rest) = _
      rw [scanMembers_quoted, scanMembers_quote, List.append_assoc, List.append_assoc]
      rfl
    · next hq => exact scanMembers_plain (any_isSpecial_of_needsQuotes hq) depth cur rest

theorem scanMembers_open (inc : Bool) (depth : ℤ) (cur rest : Text) :
    scanMembers depth false cur ((if inc then '[' else '(') :: rest) =
      scanMembers (depth + 1) false (cur ++ [if inc then '[' else '(']) rest := by
  rw [scanMembers.eq_def]
  cases inc with
  | true => rfl
  | false => rfl

theorem scanMembers_close (inc : Bool) (depth : ℤ) (cur rest : Text) :
    scanMembers depth false cur ((if inc then ']' else ')') :: rest) =
      scanMembers (depth - 1) false (cur ++ [if inc then ']' else ')']) rest := by
  rw [scanMembers.eq_def]
  cases inc with
  | true => rfl
  | false => rfl

theorem scanMembers_render (r : Range Text) (cur rest : Text) :
    scanMembers 0 false cur (render r ++ rest) = scanMembers 0 false (cur ++ render r) rest := by
  cases h : r.empty with
  | true =>
    have hrender : render r = "empty".toList := by
      unfold render
      rw [h]
      rfl
    rw [hrender]
    exact scanMembers_plain (by decide) 0 cur rest
  | false =>
    rw [render_eq h, List.cons_append, List.append_assoc, List.append_assoc, List.cons_append, scanMembers_open,
      scanMembers_bound, scanMembers_push (.inr ⟨rfl, by decide⟩), List.append_assoc, scanMembers_bound,
      List.singleton_append, scanMembers_close]
    simp

theorem scanMembers_intercalate (r : Range Text) (members : List (Range Text)) (cur : Text) :
    scanMembers 0 false cur (List.intercalate [','] ((r :: members).map render)) =
      some ((cur ++ render r) :: members.map render) := by
  induction members generalizing r cur with
  | nil =>
    have hscan := scanMembers_render r cur []
    rw [List.append_nil] at hscan
    rw [List.map_singleton, List.intercalate_singleton, hscan]
    rfl
  | cons r' members ih =>
    have hcomma : ∀ cur rest, scanMembers 0 false cur (',' :: rest) = (scanMembers 0 false [] rest).map (cur :: ·) := by
      intro cur rest
      rw [scanMembers.eq_def]
      rfl
    rw [List.map_cons, List.map_cons, List.intercalate_cons_cons, List.append_assoc, scanMembers_render,
      List.singleton_append, hcomma, ← List.map_cons, ih r' []]
    rfl

theorem render_ne_nil (r : Range Text) : ∃ c t, render r = c :: t ∧ isWhiteSpace c = false := by
  cases h : r.empty with
  | true =>
    refine ⟨'e', "mpty".toList, ?_, by decide⟩
    unfold render
    rw [h]
    rfl
  | false =>
    refine ⟨_, _, render_eq h, ?_⟩
    cases r.lowerInc with
    | true => decide
    | false => decide

theorem splitMembers_renderMultirange (members : List (Range Text)) :
    splitMembers (renderMultirange members) = .ok (members.map render) := by
  have htext : renderMultirange members = '{' :: (List.intercalate [','] (members.map render) ++ ['}']) := rfl
  have hlast : ∀ mid : Text, ('{' :: (mid ++ ['}'])).getLast? = some '}' := by
    intro mid
    rw [← List.cons_append, List.getLast?_append]
    rfl
  unfold splitMembers
  rw [htext, trim_ends _ (by decide) (by decide)]
  dsimp only
  rw [hlast, List.head?_cons, if_neg (by simp), List.drop_one, List.tail_cons, List.dropLast_concat]
  cases members with
  | nil => rfl
  | cons r members =>
    have hbody : (trim (List.intercalate [','] ((r :: members).map render))).isEmpty = false := by
      obtain ⟨c, t, hr, hc⟩ := render_ne_nil r
      have hhead : ∃ t', List.intercalate [','] ((r :: members).map render) = c :: t' := by
        cases members with
        | nil => exact ⟨t, by rw [List.map_singleton, List.intercalate_singleton, hr]⟩
        | cons r' members =>
          rw [List.map_cons, List.map_cons, List.intercalate_cons_cons, hr]
          exact ⟨_, rfl⟩
      obtain ⟨t', ht'⟩ := hhead
      rw [ht', trim_cons_isEmpty hc]
    rw [hbody, scanMembers_intercalate]
    rfl

/-- Ranges and multiranges are read back from their texts, whatever characters their bounds have. -/
theorem rangeText_roundTrip : (∀ r, parseLiteral (render r) = .ok (if r.empty then Range.none else r)) ∧
    ∀ members, splitMembers (renderMultirange members) = .ok (members.map render) :=
  ⟨parseLiteral_render, splitMembers_renderMultirange⟩

end Secantus.Ranges.Literal
