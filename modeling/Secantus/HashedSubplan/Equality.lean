/-
  What `=` answers for two values of the hashable families (`eval_binary`, `compare_constants`).

  Two texts are not simply compared. One that looks like a time of day (`is_time_text`), beside one
  that looks like a time with a zone (`is_timetz_text`), is first cast to `timetz`, whatever the types
  of the operands are. `readAs` is what `=` makes of such a pair and is undefined on every other.

  * `not_isTimetzText`: no text looks like both;
  * `equal_of_keys`: on values that have a key `=` is equality of the keys, such pairs excepted.
-/
import Secantus.PgNumeric.Compare

namespace Secantus.HashedSubplan

open Secantus PgNumeric

/-- Why an answer is refused. -/
inductive Refusal where
  /-- `Error::Internal`. -/
  | internal (text : String)
  /-- `argument of AND must be type boolean`, with the value that is not. -/
  | notBoolean (v : Bson)
  /-- A cast's own error. -/
  | cast (text : Text)

/-! ## Texts that look like times -/

/-- `c.is_ascii_digit()` for every character. -/
def digits (t : Text) : Bool := t.all Char.isDigit

/-- The seconds of a time: two digits, and a fraction after a point. -/
def isSeconds (p : Text) : Bool :=
  let (w, f) := (splitOnce (· == '.') p).getD (p, ['0'])
  w.length == 2 && digits w && digits f

/-- `is_time_text`: is it a `time` value's text (`HH:MM[:SS[.ffffff]]`)? -/
def isTimeText (s : Text) : Bool :=
  let short (p : Text) : Bool := (p.length == 1 || p.length == 2) && digits p
  match (trim s).splitOn ':' with
  | [h, m] => short h && short m
  | [h, m, p] => short h && short m && isSeconds p
  | _ => false

def isSign (c : Char) : Bool := c == '+' || c == '-'

/-- `s.rfind(['+', '-'])`: what stands before the last sign and what stands after it. -/
def splitLastSign (s : Text) : Option (Text × Text) :=
  (splitOnce isSign s.reverse).map fun (a, b) => (b.reverse, a.reverse)

/-- `is_timetz_text`: a time of day followed by its UTC offset (`01:00:00+02`). -/
def isTimetzText (s : Text) : Bool :=
  match splitLastSign (trim s) with
  | none => false
  | some (clock, offset) =>
    decide (4 ≤ (String.ofList clock).utf8ByteSize) &&
      (!offset.isEmpty && offset.all (fun c => c.isDigit || c == ':') && isTimeText clock)

theorem splitOnce_mem {p : Char → Bool} {t a b : Text} (h : splitOnce p t = some (a, b)) :
    ∃ c ∈ t, p c = true := by
  induction t generalizing a b with
  | nil => cases h
  | cons c t ih =>
    by_cases hc : p c = true
    · exact ⟨c, List.mem_cons_self, hc⟩
    simp only [splitOnce, if_neg hc, Option.map_eq_some_iff] at h
    obtain ⟨⟨a', b'⟩, h', -⟩ := h
    obtain ⟨d, hd, hp⟩ := ih h'
    exact ⟨d, List.mem_cons_of_mem _ hd, hp⟩

theorem splitOnce_parts {p : Char → Bool} {t a b : Text} (h : splitOnce p t = some (a, b)) {c : Char}
    (hc : c ∈ t) : c ∈ a ∨ p c = true ∨ c ∈ b := by
  induction t generalizing a with
  | nil => cases h
  | cons d t ih =>
    by_cases hd : p d = true
    · simp only [splitOnce, if_pos hd, Option.some.injEq, Prod.mk.injEq] at h
      obtain ⟨-, rfl⟩ := h
      obtain rfl | hc := List.mem_cons.mp hc
      · exact .inr (.inl hd)
      · exact .inr (.inr hc)
    simp only [splitOnce, if_neg hd, Option.map_eq_some_iff, Prod.mk.injEq] at h
    obtain ⟨⟨a', b'⟩, h', rfl, rfl⟩ := h
    obtain rfl | hc := List.mem_cons.mp hc
    · exact .inl List.mem_cons_self
    · obtain ha | hb := ih h' hc
      · exact .inl (List.mem_cons_of_mem _ ha)
      · exact .inr hb

theorem not_isSign_of_isDigit {c : Char} (h : c.isDigit = true) : isSign c = false := by
  simp only [isSign, Bool.or_eq_false_iff, beq_eq_false_iff_ne]
  constructor <;> rintro rfl <;> exact absurd h (by decide)

theorem not_isSign_of_digits {t : Text} (h : digits t = true) {c : Char} (hc : c ∈ t) : isSign c = false :=
  not_isSign_of_isDigit (List.all_eq_true.mp h c hc)

theorem not_isSign_of_isSeconds {p : Text} (h : isSeconds p = true) {c : Char} (hc : c ∈ p) :
    isSign c = false := by
  unfold isSeconds at h
  cases hs : splitOnce (· == '.') p with
  | none =>
    simp only [hs, Option.getD_none, Bool.and_eq_true] at h
    exact not_isSign_of_digits h.1.2 hc
  | some ab =>
    simp only [hs, Option.getD_some, Bool.and_eq_true] at h
    obtain hc | hc | hc := splitOnce_parts hs hc
    · exact not_isSign_of_digits h.1.2 hc
    · obtain rfl := eq_of_beq hc
      decide
    · exact not_isSign_of_digits h.2 hc

theorem mem_intercalate {c x : Char} {parts : List Text} (h : c ∈ [x].intercalate parts) :
    c = x ∨ ∃ p ∈ parts, c ∈ p := by
  simp only [List.intercalate, List.mem_flatten] at h
  obtain ⟨l, hl, hc⟩ := h
  induction parts with
  | nil => cases hl
  | cons p parts ih =>
    cases parts with
    | nil =>
      rw [List.intersperse_singleton, List.mem_singleton] at hl
      exact .inr ⟨p, List.mem_singleton_self p, hl ▸ hc⟩
    | cons q parts =>
      rw [List.intersperse_cons_cons] at hl
      obtain rfl | hl := List.mem_cons.mp hl
      · exact .inr ⟨l, List.mem_cons_self, hc⟩
      obtain rfl | hl := List.mem_cons.mp hl
      · exact .inl (List.mem_singleton.mp hc)
      · obtain hx | ⟨r, hr, hcr⟩ := ih hl
        · exact .inl hx
        · exact .inr ⟨r, List.mem_cons_of_mem _ hr, hcr⟩

theorem not_isSign_of_isTimeText {s : Text} (h : isTimeText s = true) {c : Char} (hc : c ∈ trim s) :
    isSign c = false := by
  have hjoin : [':'].intercalate ((trim s).splitOn ':') = trim s := List.intercalate_splitOn ':'
  rw [← hjoin] at hc
  obtain rfl | ⟨p, hp, hc⟩ := mem_intercalate hc
  · decide
  unfold isTimeText at h
  split at h
  · rename_i hh m heq
    simp only [Bool.and_eq_true] at h
    simp only [heq, List.mem_cons, List.not_mem_nil, or_false] at hp
    obtain rfl | rfl := hp
    · exact not_isSign_of_digits h.1.2 hc
    · exact not_isSign_of_digits h.2.2 hc
  · rename_i hh m sec heq
    simp only [Bool.and_eq_true] at h
    simp only [heq, List.mem_cons, List.not_mem_nil, or_false] at hp
    obtain rfl | rfl | rfl := hp
    · exact not_isSign_of_digits h.1.1.2 hc
    · exact not_isSign_of_digits h.1.2.2 hc
    · exact not_isSign_of_isSeconds h.2 hc
  · cases h

/-- No text looks both like a time of day and like a time with a zone. -/
theorem not_isTimetzText {s : Text} (h : isTimeText s = true) : isTimetzText s = false := by
  unfold isTimetzText
  cases hs : splitLastSign (trim s) with
  | none => rfl
  | some ab =>
    simp only [splitLastSign, Option.map_eq_some_iff] at hs
    obtain ⟨⟨a, b⟩, hs, -⟩ := hs
    obtain ⟨c, hc, hsign⟩ := splitOnce_mem hs
    rw [not_isSign_of_isTimeText h (List.mem_reverse.mp hc)] at hsign
    cases hsign

/-! ## Families and keys -/

inductive Family where
  | text
  | int
  | oid
  | bool
  deriving DecidableEq, Repr

inductive Key where
  | text (s : String)
  | int (n : Int)
  | bool (b : Bool)
  deriving DecidableEq, Repr

def keyOf : Bson → Family → Option Key
  | .string s, .text => some (.text s)
  | .int32 i, .int | .int32 i, .oid => some (.int i.toInt)
  | .int64 i, .int | .int64 i, .oid => some (.int i.toInt)
  | .boolean b, .bool => some (.bool b)
  | _, _ => none

theorem keyOf_cases {v : Bson} {f : Family} {k : Key} (h : keyOf v f = some k) :
    (f = .text ∧ ∃ s, v = .string s ∧ k = .text s) ∨
      ((f = .int ∨ f = .oid) ∧
        ∃ n, k = .int n ∧ ((∃ i, v = .int32 i ∧ n = i.toInt) ∨ ∃ i, v = .int64 i ∧ n = i.toInt)) ∨
      (f = .bool ∧ ∃ b, v = .boolean b ∧ k = .bool b) := by
  unfold keyOf at h
  split at h <;> cases h <;> simp

/-! ## The comparison -/

section Comparison

/- `cast_value(_, "timetz")` in the session's time zone, and the arms of `eval_binary` for values of
   other types. -/
variable (timetz : Text → Except Text Text) (other : Bson → Bson → Except Refusal Bson)

/-- `widen`: a time of day beside a time with a zone is read as one. -/
def widen (t beside : Text) : Except Refusal Text :=
  if isTimeText t && isTimetzText beside then (timetz t).mapError .cast else .ok t

/-- `=` on two texts. -/
def equalText (a b : Text) : Except Refusal Bool := do
  let l ← widen timetz a b
  let r ← widen timetz b l
  pure (l == r)

def intOf : Bson → Option Int
  | .int32 i => some i.toInt
  | .int64 i => some i.toInt
  | _ => none

/-- `=` on two values: NULL beside a NULL. -/
def equal (l r : Bson) : Except Refusal Bson :=
  match l, r with
  | .null, _ => .ok .null
  | _, .null => .ok .null
  | .string a, .string b => (equalText timetz a.toList b.toList).map .boolean
  | .boolean a, .boolean b => .ok (.boolean (a == b))
  | l, r =>
    match intOf l, intOf r with
    | some a, some b => .ok (.boolean (a == b))
    | _, _ => other l r

/-- What `=` makes of a time of day beside a time with a zone: the two are equal when the cast of
    the one is the other's text. -/
def readAs (l r : Bson) : Option (Except Text Bool) :=
  match l, r with
  | .string a, .string b =>
    if isTimeText a.toList && isTimetzText b.toList then some ((timetz a.toList).map (· == b.toList))
    else if isTimetzText a.toList && isTimeText b.toList then some ((timetz b.toList).map (a.toList == ·))
    else none
  | _, _ => none

variable {timetz other}

theorem widen_eq_ok {t beside : Text} (h : isTimeText t = true → isTimetzText beside = false) :
    widen timetz t beside = .ok t := by
  unfold widen
  rw [if_neg]
  simp only [Bool.and_eq_true, not_and]
  intro ht
  rw [h ht]
  decide

theorem widen_eq_cast {t beside : Text} (h : isTimeText t = true) (h' : isTimetzText beside = true) :
    widen timetz t beside = (timetz t).mapError .cast := by
  unfold widen
  rw [h, h', Bool.and_self, if_pos rfl]

theorem isTimeText_eq_false {s : Text} (h : isTimetzText s = true) : isTimeText s = false := by
  by_contra hs
  rw [not_isTimetzText (Bool.of_not_eq_false hs)] at h
  cases h

theorem equalText_eq (a b : String) :
    equalText timetz a.toList b.toList = match readAs timetz (.string a) (.string b) with
      | some read => read.mapError .cast
      | none => .ok (decide (a = b)) := by
  simp only [equalText, readAs]
  by_cases hab : isTimeText a.toList = true ∧ isTimetzText b.toList = true
  · rw [widen_eq_cast hab.1 hab.2, if_pos (by rw [hab.1, hab.2]; rfl)]
    cases timetz a.toList with
    | error t => rfl
    | ok l =>
      have hr : widen timetz b.toList l = .ok b.toList :=
        widen_eq_ok fun hb => by rw [isTimeText_eq_false hab.2] at hb; cases hb
      simp only [Except.mapError, bind, Except.bind, hr]
      rfl
  · have hl : widen timetz a.toList b.toList = .ok a.toList :=
      widen_eq_ok fun ha => Bool.eq_false_of_not_eq_true fun hb => hab ⟨ha, hb⟩
    simp only [hl, bind, Except.bind]
    rw [if_neg (by simpa using hab)]
    by_cases hba : isTimetzText a.toList = true ∧ isTimeText b.toList = true
    · rw [widen_eq_cast hba.2 hba.1, if_pos (by rw [hba.1, hba.2]; rfl)]
      cases timetz b.toList <;> rfl
    · rw [widen_eq_ok fun hb => Bool.eq_false_of_not_eq_true fun ha => hba ⟨ha, hb⟩,
        if_neg (by simpa using hba)]
      have hkey : (a.toList == b.toList) = decide (a = b) := by
        rw [Bool.eq_iff_iff, beq_iff_eq, decide_eq_true_iff, String.toList_inj]
      simp only [pure, Except.pure, hkey]

/-- On values that have a key in one family `=` is equality of the keys, times beside times with a
    zone excepted. -/
theorem equal_of_keys {l r : Bson} {f : Family} {j k : Key} (hl : keyOf l f = some j)
    (hr : keyOf r f = some k) :
    equal timetz other l r = match readAs timetz l r with
      | some read => (read.mapError .cast).map .boolean
      | none => .ok (.boolean (decide (j = k))) := by
  obtain ⟨hf, a, rfl, rfl⟩ | ⟨hf, m, rfl, hm⟩ | ⟨hf, a, rfl, rfl⟩ := keyOf_cases hl
  · obtain ⟨-, b, rfl, rfl⟩ | ⟨hf', -⟩ | ⟨hf', -⟩ := keyOf_cases hr
    · simp only [equal, equalText_eq, Key.text.injEq]
      cases readAs timetz (.string a) (.string b) <;> rfl
    · simp [hf] at hf'
    · simp [hf] at hf'
  · obtain ⟨rfl, -⟩ | ⟨-, n, rfl, hn⟩ | ⟨rfl, -⟩ := keyOf_cases hr
    · simp at hf
    · obtain ⟨i, rfl, rfl⟩ | ⟨i, rfl, rfl⟩ := hm <;> obtain ⟨i', rfl, rfl⟩ | ⟨i', rfl, rfl⟩ := hn <;>
        simp [equal, intOf, readAs, beq_eq_decide]
    · simp at hf
  · obtain ⟨rfl, -⟩ | ⟨hf', -⟩ | ⟨-, b, rfl, rfl⟩ := keyOf_cases hr
    · cases hf
    · simp [hf] at hf'
    · simp [equal, readAs, beq_eq_decide]

end Comparison

end Secantus.HashedSubplan
