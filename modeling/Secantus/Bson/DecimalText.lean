/-
  The text of a Decimal128 and the reading of it back.

  The server sees a Decimal128 only through its text (`to_string`): the scientific string
  of the decimal arithmetic specification, plain while the exponent is at most zero and
  the adjusted exponent at least -6, `d.dddE+x` otherwise. `Layout` is such a text before
  its sign: integer digits, fraction digits and an optional exponent.

  * `layout_mag`: the layout of a coefficient and exponent writes the number they stand for;
  * `splitOnce_expText`, `parseI64_expText`, `splitOnce_dot`: splitting the text at `E` and
    at the point, as both parsers of the server do, gives the layout back.
-/
import Secantus.Bson.Value
import Secantus.Library.Digits
import Mathlib.Data.List.Infix
import Mathlib.Data.Nat.Digits.Lemmas
import Mathlib.Tactic.IntervalCases
import Mathlib.Tactic.FinCases

namespace Secantus

open Digits

/-- The characters of a text. -/
abbrev Text := List Char

/-! ## Rust string functions, over characters -/

/-- `str::split_once` on a character predicate. -/
def splitOnce (p : Char → Bool) : Text → Option (Text × Text)
  | [] => none
  | c :: cs => if p c then some ([], cs) else (splitOnce p cs).map fun (a, b) => (c :: a, b)

/-- `str::strip_prefix` of one character. -/
def stripPrefix (c : Char) : Text → Option Text
  | [] => none
  | d :: cs => if d = c then some cs else none

/-- `str::contains`. -/
def contains (s sub : Text) : Bool := s.tails.any (sub.isPrefixOf ·)

/-- `str::trim`. -/
def trimText (s : Text) : Text := (s.dropWhile Char.isWhitespace).rdropWhile Char.isWhitespace

/-- `char::to_digit(10)`. -/
def toDigit (c : Char) : Option ℕ := if c.isDigit then some (c.toNat - 48) else none

/-- The decimal digits of `n.to_string()`. -/
def decimalDigits (n : ℕ) : List ℕ := if n = 0 then [0] else (Nat.digits 10 n).reverse

def digitText (ds : List ℕ) : Text := ds.map Nat.digitChar

/-- `i64::to_string`. -/
def intText (x : ℤ) : Text :=
  if x < 0 then '-' :: digitText (decimalDigits x.natAbs) else digitText (decimalDigits x.natAbs)

/-- `str::parse::<i64>`: an optional sign, then at least one digit, within range. -/
def parseI64 (s : Text) : Option ℤ := do
  let (neg, ds) := match s with
    | '-' :: cs => (true, cs)
    | '+' :: cs => (false, cs)
    | cs => (false, cs)
  if ds.isEmpty then none
  let n ← (ds.mapM toDigit).map (value 10)
  let x : ℤ := if neg then -(n : ℤ) else n
  if -2 ^ 63 ≤ x ∧ x < 2 ^ 63 then some x else none

/-! ## The text of a decimal -/

/-- An unsigned decimal text: `int[.frac][Eexp]`. -/
structure Layout where
  int : List ℕ
  frac : List ℕ
  exp : Option ℤ

def Layout.expText (l : Layout) : Text :=
  match l.exp with
  | none => []
  | some x => 'E' :: ((if 0 < x then ['+'] else []) ++ intText x)

def Layout.mantissa (l : Layout) : Text :=
  digitText l.int ++ (if l.frac = [] then [] else '.' :: digitText l.frac)

def Layout.text (l : Layout) : Text := l.mantissa ++ l.expText

namespace Decimal128

/-- The scientific string's layout for `coeff · 10^x`. -/
def layout (coeff : ℕ) (x : ℤ) : Layout :=
  let ds := decimalDigits coeff
  let adj := x + ds.length - 1
  if x ≤ 0 ∧ -6 ≤ adj then
    if x = 0 then ⟨ds, [], none⟩
    else if ds.length ≤ x.natAbs then ⟨[0], List.replicate (x.natAbs - ds.length) 0 ++ ds, none⟩
    else ⟨ds.take (ds.length - x.natAbs), ds.drop (ds.length - x.natAbs), none⟩
  else ⟨ds.take 1, ds.drop 1, some adj⟩

/-- The exponent of a finite decimal's biased exponent field. -/
def unbias (exp : Fin 12288) : ℤ := (exp : ℤ) - 6176

end Decimal128

def DecimalValue.toText : DecimalValue → Text
  | .nan => ['N', 'a', 'N']
  | .inf neg => (if neg then ['-'] else []) ++ ['I', 'n', 'f', 'i', 'n', 'i', 't', 'y']
  | .finite neg coeff exp =>
    (if neg then ['-'] else []) ++ (Decimal128.layout coeff (Decimal128.unbias exp)).text

/-- `Decimal128::to_string`. -/
def Decimal128.toText (d : Decimal128) : Text := d.value.toText

/-! ## Digits -/

theorem decimalDigits_lt (n : ℕ) : ∀ d ∈ decimalDigits n, d < 10 := by
  intro d hd
  unfold decimalDigits at hd
  split at hd
  · simp at hd
    omega
  · exact Nat.digits_lt_base (by decide) (List.mem_reverse.mp hd)

theorem decimalDigits_ne_nil (n : ℕ) : decimalDigits n ≠ [] := by
  unfold decimalDigits
  split
  · simp
  · simpa [Nat.digits_eq_nil_iff_eq_zero] using ‹¬n = 0›

@[simp] theorem value_decimalDigits (n : ℕ) : value 10 (decimalDigits n) = n := by
  unfold decimalDigits
  split
  · simp [value, *]
  · exact value_digits_reverse 10 n

theorem digitChar_isDigit {d : ℕ} (hd : d < 10) : (Nat.digitChar d).isDigit = true := by
  interval_cases d <;> decide

theorem toDigit_digitChar {d : ℕ} (hd : d < 10) : toDigit (Nat.digitChar d) = some d := by
  interval_cases d <;> decide

theorem mapM_toDigit {ds : List ℕ} (h : ∀ d ∈ ds, d < 10) :
    (digitText ds).mapM toDigit = some ds := by
  induction ds with
  | nil => rfl
  | cons d ds ih =>
    have h1 := ih fun x hx => h x (List.mem_cons_of_mem d hx)
    unfold digitText at h1 ⊢
    rw [List.map_cons, List.mapM_cons, toDigit_digitChar (h d List.mem_cons_self), h1]
    rfl

theorem toDigit_eq_some {c : Char} {d : ℕ} (h : toDigit c = some d) : d < 10 ∧ c = Nat.digitChar d := by
  unfold toDigit at h
  split at h
  · next hc =>
    obtain rfl := Option.some.inj h
    rw [Char.isDigit, Bool.and_eq_true, decide_eq_true_iff, decide_eq_true_iff] at hc
    have hlo : 48 ≤ c.toNat := hc.1
    have hhi : c.toNat ≤ 57 := hc.2
    refine ⟨by omega, ?_⟩
    have hchar : Char.ofNat c.toNat = c := Char.ofNat_toNat c
    rw [← hchar]
    generalize c.toNat = n at hlo hhi
    interval_cases n <;> decide
  · cases h

theorem mapM_toDigit_eq_some : ∀ {t : Text} {ds : List ℕ}, t.mapM toDigit = some ds →
    (∀ d ∈ ds, d < 10) ∧ t = digitText ds
  | [], ds, h => by
    obtain rfl : [] = ds := Option.some.inj h
    exact ⟨by simp, rfl⟩
  | c :: t, ds, h => by
    rw [List.mapM_cons] at h
    obtain ⟨d, hd, h⟩ := Option.bind_eq_some_iff.mp h
    obtain ⟨ds', hds, h⟩ := Option.bind_eq_some_iff.mp h
    obtain rfl : d :: ds' = ds := Option.some.inj h
    obtain ⟨hlt, rfl⟩ := toDigit_eq_some hd
    obtain ⟨hall, rfl⟩ := mapM_toDigit_eq_some hds
    exact ⟨by simpa using ⟨hlt, hall⟩, rfl⟩

theorem isDigit_of_mem_digitText {ds : List ℕ} (h : ∀ d ∈ ds, d < 10) :
    ∀ c ∈ digitText ds, c.isDigit = true := by
  intro c hc
  obtain ⟨d, hd, rfl⟩ := List.mem_map.mp hc
  exact digitChar_isDigit (h d hd)

/-! ## The layout stands for the number -/

/-- A layout whose digits are digits, with at least one before the point. -/
structure Layout.Wf (l : Layout) : Prop where
  int_ne : l.int ≠ []
  int_lt : ∀ d ∈ l.int, d < 10
  frac_lt : ∀ d ∈ l.frac, d < 10
  exp_range : ∀ x ∈ l.exp, x.natAbs < 2 ^ 63

/-- The number a layout writes. -/
def Layout.mag (l : Layout) : ℚ := Digits.mag 10 (l.int ++ l.frac) (l.exp.getD 0 - l.frac.length)

theorem Layout.Wf.digit {l : Layout} (h : l.Wf) : ∀ d ∈ l.int ++ l.frac, d < 10 := by
  intro d hd
  rcases List.mem_append.mp hd with hd | hd
  · exact h.int_lt d hd
  · exact h.frac_lt d hd

theorem mag_decimalDigits (n : ℕ) (x : ℤ) : Digits.mag 10 (decimalDigits n) x = n * 10 ^ x := by
  unfold Digits.mag
  rw [value_decimalDigits]
  rfl

namespace Decimal128

theorem layout_wf (coeff : ℕ) (hc : coeff < 10 ^ 34) (x : ℤ) (hx : -6176 ≤ x ∧ x < 6112) :
    (layout coeff x).Wf := by
  have hlt := decimalDigits_lt coeff
  have hne := decimalDigits_ne_nil coeff
  have hlen : (decimalDigits coeff).length ≤ 34 := by
    unfold decimalDigits
    split
    · decide
    · rw [List.length_reverse]
      exact (Nat.digits_length_le_iff (by decide) coeff).mpr hc
  have hpos := List.length_pos_iff.mpr hne
  unfold layout
  simp only
  split
  · split
    · exact ⟨hne, hlt, by simp, by simp⟩
    · split
      · refine ⟨by simp, by simp, ?_, by simp⟩
        intro d hd
        rcases List.mem_append.mp hd with hd | hd
        · rw [List.eq_of_mem_replicate hd]
          decide
        · exact hlt d hd
      · refine ⟨?_, fun d hd => hlt d (List.mem_of_mem_take hd),
          fun d hd => hlt d (List.mem_of_mem_drop hd), by simp⟩
        simp only [ne_eq, List.take_eq_nil_iff, hne, or_false]
        omega
  · refine ⟨?_, fun d hd => hlt d (List.mem_of_mem_take hd),
      fun d hd => hlt d (List.mem_of_mem_drop hd), ?_⟩
    · simp [hne]
    · intro y hy
      simp only [Option.mem_def, Option.some.injEq] at hy
      omega

theorem layout_mag (coeff : ℕ) (x : ℤ) : (layout coeff x).mag = coeff * 10 ^ x := by
  have hne := decimalDigits_ne_nil coeff
  have hpos := List.length_pos_iff.mpr hne
  rw [← mag_decimalDigits]
  unfold layout Layout.mag
  simp only
  split
  · rename_i hx
    split
    · rename_i h0
      simp [h0]
    · split
      · rename_i h1
        -- a leading run of zeros writes nothing
        have hz : ∀ k, Digits.value 10 (List.replicate k 0 ++ decimalDigits coeff) = coeff := by
          intro k
          rw [value_append, value_decimalDigits]
          simp [Digits.value, Nat.ofDigits_replicate_zero]
        have hk : (0 : ℤ) - ((List.replicate (x.natAbs - (decimalDigits coeff).length) 0 ++
            decimalDigits coeff).length : ℤ) = x := by
          rw [List.length_append, List.length_replicate]
          omega
        simp only [Option.getD_none]
        rw [hk]
        unfold Digits.mag
        rw [value_decimalDigits, List.singleton_append, value_cons, hz]
        simp
      · have hk : (0 : ℤ) - ((decimalDigits coeff).drop
            ((decimalDigits coeff).length - x.natAbs)).length = x := by
          rw [List.length_drop]
          omega
        simp only [Option.getD_none]
        rw [hk, List.take_append_drop]
  · have hk : x + (decimalDigits coeff).length - 1 - ((decimalDigits coeff).drop 1).length = x := by
      rw [List.length_drop]
      omega
    simp only [Option.getD_some]
    rw [hk, List.take_append_drop]

end Decimal128

/-! ## Splitting the text again -/

theorem splitOnce_eq_none {p : Char → Bool} {s : Text} (h : ∀ c ∈ s, p c = false) :
    splitOnce p s = none := by
  induction s with
  | nil => rfl
  | cons c s ih =>
    rw [splitOnce, h c List.mem_cons_self, ih fun d hd => h d (List.mem_cons_of_mem c hd)]
    rfl

theorem splitOnce_append {p : Char → Bool} {a : Text} (h : ∀ c ∈ a, p c = false) {c : Char}
    (hc : p c = true) (b : Text) : splitOnce p (a ++ c :: b) = some (a, b) := by
  induction a with
  | nil => simp [splitOnce, hc]
  | cons d a ih =>
    rw [List.cons_append, splitOnce, h d List.mem_cons_self,
      ih fun x hx => h x (List.mem_cons_of_mem d hx)]
    rfl

/-- `['e', 'E']` as a pattern. -/
def isE (c : Char) : Bool := c = 'e' || c = 'E'

def isPoint (c : Char) : Bool := c = '.'

theorem isE_of_isDigit {c : Char} (h : c.isDigit = true) : isE c = false := by
  unfold isE
  rcases eq_or_ne c 'e' with rfl | h1
  · exact absurd h (by decide)
  · rcases eq_or_ne c 'E' with rfl | h2
    · exact absurd h (by decide)
    · simp [h1, h2]

theorem isPoint_of_isDigit {c : Char} (h : c.isDigit = true) : isPoint c = false := by
  unfold isPoint
  rcases eq_or_ne c '.' with rfl | h1
  · exact absurd h (by decide)
  · simp [h1]

theorem Layout.Wf.mantissa_chars {l : Layout} (h : l.Wf) :
    ∀ c ∈ l.mantissa, c.isDigit = true ∨ c = '.' := by
  intro c hc
  unfold Layout.mantissa at hc
  rcases List.mem_append.mp hc with hc | hc
  · exact .inl (isDigit_of_mem_digitText h.int_lt c hc)
  · split at hc
    · cases hc
    · rcases List.mem_cons.mp hc with rfl | hc
      · exact .inr rfl
      · exact .inl (isDigit_of_mem_digitText h.frac_lt c hc)

theorem Layout.Wf.splitOnce_text {l : Layout} (h : l.Wf) :
    splitOnce isE l.text = l.exp.map fun x =>
      (l.mantissa, (if 0 < x then ['+'] else []) ++ intText x) := by
  have hm : ∀ c ∈ l.mantissa, isE c = false := by
    intro c hc
    rcases h.mantissa_chars c hc with hd | rfl
    · exact isE_of_isDigit hd
    · decide
  unfold Layout.text Layout.expText
  cases hx : l.exp with
  | none =>
    rw [List.append_nil, splitOnce_eq_none hm]
    rfl
  | some x => exact splitOnce_append hm (by decide) _

theorem Layout.Wf.splitOnce_mantissa {l : Layout} (h : l.Wf) :
    (splitOnce isPoint l.mantissa).getD (l.mantissa, []) = (digitText l.int, digitText l.frac) := by
  have hi : ∀ c ∈ digitText l.int, isPoint c = false := by
    intro c hc
    exact isPoint_of_isDigit (isDigit_of_mem_digitText h.int_lt c hc)
  unfold Layout.mantissa
  by_cases hf : l.frac = []
  · rw [if_pos hf, List.append_nil, splitOnce_eq_none hi, hf]
    rfl
  · rw [if_neg hf, splitOnce_append hi (by decide)]
    rfl

theorem parseI64_digitText {n : ℕ} (hn : (n : ℤ) < 2 ^ 63) (neg : Bool) :
    parseI64 ((if neg then ['-'] else []) ++ digitText (decimalDigits n)) =
      some (if neg then -(n : ℤ) else n) := by
  have hne : digitText (decimalDigits n) ≠ [] := by
    unfold digitText
    simpa using decimalDigits_ne_nil n
  have hmap := mapM_toDigit (decimalDigits_lt n)
  obtain ⟨c, cs, hcs⟩ := List.exists_cons_of_ne_nil hne
  have hc : c.isDigit = true := by
    apply isDigit_of_mem_digitText (decimalDigits_lt n)
    rw [hcs]
    exact List.mem_cons_self
  have h1 : c ≠ '-' := by
    rintro rfl
    exact absurd hc (by decide)
  have h2 : c ≠ '+' := by
    rintro rfl
    exact absurd hc (by decide)
  rw [hcs] at hmap ⊢
  unfold parseI64
  cases neg with
  | true =>
    simp [hmap]
    omega
  | false =>
    simp [h1, h2, hmap]
    omega

theorem parseI64_plus {s : Text} {x : ℤ} (h : parseI64 s = some x)
    (hs : ∀ c ∈ s.head?, c ≠ '-' ∧ c ≠ '+') : parseI64 ('+' :: s) = some x := by
  cases s with
  | nil => simp [parseI64] at h
  | cons c cs =>
    obtain ⟨h1, h2⟩ := hs c rfl
    unfold parseI64 at h ⊢
    simpa [h1, h2] using h

theorem parseI64_expText {x : ℤ} (h : x.natAbs < 2 ^ 63) :
    parseI64 ((if 0 < x then ['+'] else []) ++ intText x) = some x := by
  have hn : ((x.natAbs : ℕ) : ℤ) < 2 ^ 63 := by exact_mod_cast h
  unfold intText
  by_cases hneg : x < 0
  · rw [if_neg (by omega), if_pos hneg]
    have h1 := parseI64_digitText hn true
    rw [if_pos rfl, if_pos rfl] at h1
    simp only [List.singleton_append] at h1
    rw [List.nil_append, h1]
    congr 1
    omega
  · rw [if_neg hneg]
    have h1 := parseI64_digitText hn false
    simp only [Bool.false_eq_true, if_false, List.nil_append] at h1
    have hx : ((x.natAbs : ℕ) : ℤ) = x := by omega
    rw [hx] at h1
    by_cases hpos : 0 < x
    · rw [if_pos hpos]
      refine parseI64_plus h1 ?_
      intro c hc
      have hd : c.isDigit = true :=
        isDigit_of_mem_digitText (decimalDigits_lt _) c (List.mem_of_mem_head? hc)
      constructor
      · rintro rfl
        exact absurd hd (by decide)
      · rintro rfl
        exact absurd hd (by decide)
    · rw [if_neg hpos]
      exact h1

theorem parseI64_intText {n : ℤ} (h : -2 ^ 63 ≤ n ∧ n < 2 ^ 63) : parseI64 (intText n) = some n := by
  by_cases hneg : n < 0
  · have hmap := mapM_toDigit (decimalDigits_lt n.natAbs)
    have hne : digitText (decimalDigits n.natAbs) ≠ [] := by
      simpa [digitText] using decimalDigits_ne_nil n.natAbs
    unfold intText parseI64
    rw [if_pos hneg]
    simp only [List.isEmpty_eq_false_iff.mpr hne, Bool.false_eq_true, if_false, hmap, Option.map_some,
      value_decimalDigits, if_true, Option.bind_eq_bind, Option.bind_some]
    rw [show -((n.natAbs : ℕ) : ℤ) = n by omega, if_pos h]
  · have hnat : ((n.natAbs : ℕ) : ℤ) = n := by omega
    have := parseI64_digitText (n := n.natAbs) (by omega) false
    rw [hnat] at this
    unfold intText
    rw [if_neg hneg]
    simpa using this

theorem parseI64_range {t : Text} {n : ℤ} (h : parseI64 t = some n) : -2 ^ 63 ≤ n ∧ n < 2 ^ 63 := by
  unfold parseI64 at h
  -- the range is checked last, whatever the sign
  split at h
  all_goals
    dsimp only at h
    split at h
    · cases h
    · obtain ⟨k, -, h⟩ := Option.bind_eq_some_iff.mp h
      obtain ⟨hrange, hk⟩ := Option.ite_none_right_eq_some.mp h
      exact Option.some.inj hk ▸ hrange

/-! ## The characters of a decimal's text -/

/-- Every character a finite decimal's text is made of. -/
def decimalChars : Text :=
  ['0', '1', '2', '3', '4', '5', '6', '7', '8', '9', '.', 'E', '+', '-']

theorem mem_decimalChars_of_digitText {ds : List ℕ} (h : ∀ d ∈ ds, d < 10) :
    ∀ c ∈ digitText ds, c ∈ decimalChars := by
  intro c hc
  obtain ⟨d, hd, rfl⟩ := List.mem_map.mp hc
  have := h d hd
  interval_cases d <;> decide

theorem mem_decimalChars_of_intText (x : ℤ) : ∀ c ∈ intText x, c ∈ decimalChars := by
  intro c hc
  unfold intText at hc
  split at hc
  · rcases List.mem_cons.mp hc with rfl | hc
    · decide
    · exact mem_decimalChars_of_digitText (decimalDigits_lt _) c hc
  · exact mem_decimalChars_of_digitText (decimalDigits_lt _) c hc

theorem Layout.Wf.text_chars {l : Layout} (h : l.Wf) : ∀ c ∈ l.text, c ∈ decimalChars := by
  intro c hc
  unfold Layout.text Layout.mantissa Layout.expText at hc
  simp only [List.mem_append] at hc
  rcases hc with (hc | hc) | hc
  · exact mem_decimalChars_of_digitText h.int_lt c hc
  · split at hc
    · cases hc
    · rcases List.mem_cons.mp hc with rfl | hc
      · decide
      · exact mem_decimalChars_of_digitText h.frac_lt c hc
  · split at hc
    · cases hc
    · rcases List.mem_cons.mp hc with rfl | hc
      · decide
      · rcases List.mem_append.mp hc with hc | hc
        · split at hc
          · rw [List.mem_singleton.mp hc]
            decide
          · cases hc
        · exact mem_decimalChars_of_intText _ c hc

theorem contains_eq_false {s sub : Text} {c : Char} (h : c ∉ s) : contains s (c :: sub) = false := by
  unfold contains
  rw [List.any_eq_false]
  intro t ht hp
  have hsuf : t <:+ s := (List.mem_tails t s).mp ht
  rw [List.isPrefixOf_iff_prefix] at hp
  exact h (hsuf.subset (hp.subset List.mem_cons_self))

theorem trimText_eq_self {s : Text} (h : ∀ c ∈ s, c.isWhitespace = false) : trimText s = s := by
  have h1 : s.dropWhile Char.isWhitespace = s := by
    cases s with
    | nil => rfl
    | cons c s => rw [List.dropWhile_cons_of_neg (by simp [h c List.mem_cons_self])]
  unfold trimText
  rw [h1, List.rdropWhile_eq_self_iff]
  intro hne
  simp [h _ (List.getLast_mem hne)]

/-- A signed text, as `toText` writes it. -/
def signedText (neg : Bool) (l : Layout) : Text := (if neg then ['-'] else []) ++ l.text

theorem Layout.Wf.signedText_chars {l : Layout} (h : l.Wf) (neg : Bool) :
    ∀ c ∈ signedText neg l, c ∈ decimalChars := by
  intro c hc
  rcases List.mem_append.mp hc with hc | hc
  · split at hc
    · rw [List.mem_singleton.mp hc]
      decide
    · cases hc
  · exact h.text_chars c hc

theorem Layout.Wf.trimText_signedText {l : Layout} (h : l.Wf) (neg : Bool) :
    trimText (signedText neg l) = signedText neg l := by
  have hws : decimalChars.all (fun c => !c.isWhitespace) = true := by decide
  apply trimText_eq_self
  intro c hc
  simpa using List.all_eq_true.mp hws c (h.signedText_chars neg c hc)

/-- A finite decimal's text names neither a NaN nor an infinity. -/
theorem Layout.Wf.not_contains {l : Layout} (h : l.Wf) (neg : Bool) {c : Char} (sub : Text)
    (hc : c = 'n' ∨ c = 'i') : contains ((signedText neg l).map Char.toLower) (c :: sub) = false := by
  have hlow : decimalChars.all (fun d => d.toLower != 'n' && d.toLower != 'i') = true := by decide
  apply contains_eq_false
  intro hmem
  obtain ⟨d, hd, hdc⟩ := List.mem_map.mp hmem
  have h1 := List.all_eq_true.mp hlow d (h.signedText_chars neg d hd)
  rcases hc with rfl | rfl
  · simp [hdc] at h1
  · simp [hdc] at h1

/-- The sign of a text and what follows it. -/
def signRest (s : Text) : ℤ × Text :=
  match stripPrefix '-' s with
  | some r => (-1, r)
  | none => (1, (stripPrefix '+' s).getD s)

theorem Layout.Wf.signRest_signedText {l : Layout} (h : l.Wf) (neg : Bool) :
    signRest (signedText neg l) = (if neg then -1 else 1, l.text) := by
  obtain ⟨d, ds, hd⟩ := List.exists_cons_of_ne_nil h.int_ne
  have hd10 : d < 10 := h.int_lt d (by rw [hd]; exact List.mem_cons_self)
  have htext : l.text = Nat.digitChar d ::
      (digitText ds ++ (if l.frac = [] then [] else '.' :: digitText l.frac) ++ l.expText) := by
    simp [Layout.text, Layout.mantissa, hd, digitText]
  have h1 : ∀ d < 10, Nat.digitChar d ≠ '-' ∧ Nat.digitChar d ≠ '+' := by decide
  obtain ⟨hm, hp⟩ := h1 d hd10
  cases neg with
  | true => simp [signedText, signRest, stripPrefix]
  | false => simp [signedText, signRest, stripPrefix, htext, hm, hp]

end Secantus
