/-
  An anchored regex as bounds (scan_bounds.rs, `regex_prefix`, `regex`).

  The engine that matches is the `regex` crate, here a parameter; `Engine.Standard` is what its documentation
  says of `^`, of characters that stand for themselves, plain or behind a backslash, and of `+`. `\<` and `\>`
  are not among them: they are the edges of a word, where the scan for the prefix reads a character.
-/
import Secantus.Library.Utf8
import Secantus.ScanBounds.Types

namespace Secantus.ScanBounds

open Secantus Bson BsonOrder SortKey ByteOrder

/-! ## The engine -/

/-- The engine, and `char::is_alphanumeric`. `matchesFrom pattern before rest`: the rest of a pattern matches
    where `before` has been read and `rest` is left. -/
structure Engine where
  isAlphanumeric : Char → Bool
  accepts : (pattern options s : String) → Prop
  matchesFrom : (pattern before rest : List Char) → Prop

def metaChars : List Char := ".*+?|()[]{}^$".toList

/-- The characters with a meaning of their own. -/
def isMeta (c : Char) : Bool := c ∈ metaChars || c == '\\'

/-- The quantifiers a pattern starts with let the item before them match nothing. -/
def letsOut : List Char → Bool
  | '*' :: _ => true
  | '?' :: _ => true
  | '{' :: _ => true
  | '+' :: '?' :: pattern => letsOut pattern
  | '+' :: pattern => letsOut pattern
  | _ => false

/-- The pattern matches the one character next, and goes on from there unless it repeats it. -/
def Engine.Takes (E : Engine) (c : Char) (pattern before rest : List Char) : Prop :=
  ∃ rest', rest = c :: rest' ∧ (pattern.head? ≠ some '+' → E.matchesFrom pattern (before ++ [c]) rest')

structure Engine.Standard (E : Engine) : Prop where
  /-- Without options and alternatives, `^` matches at the start only. -/
  anchor : ∀ (pattern s : String) (rest : List Char), pattern.toList = '^' :: rest → '|' ∉ rest →
    E.accepts pattern "" s → E.matchesFrom rest [] s.toList
  /-- A character without a meaning of its own is itself. -/
  literal : ∀ c pattern before rest, isMeta c = false → '|' ∉ pattern → letsOut pattern = false →
    E.matchesFrom (c :: pattern) before rest → E.Takes c pattern before rest
  /-- So is one behind a backslash that is no letter or digit, and not `<` or `>`. -/
  escaped : ∀ c pattern before rest, E.isAlphanumeric c = false → c ≠ '<' → c ≠ '>' → '|' ∉ pattern →
    letsOut pattern = false → E.matchesFrom ('\\' :: c :: pattern) before rest → E.Takes c pattern before rest

/-! ## The literal prefix -/

/-- A quantifier makes the character before it optional. -/
def quantified (rest : List Char) : Bool :=
  match rest with
  | '*' :: _ => true
  | '?' :: _ => true
  | '{' :: _ => true
  | _ => false

/-- The characters the scan ends at. -/
def endsPrefix (c : Char) : Bool := c ∈ metaChars || c == '\x00'

section Prefix

variable (isAlphanumeric : Char → Bool)

/-- The characters at the start of a pattern, behind its anchor, that every match starts with. -/
def prefixChars : List Char → List Char
  | [] => []
  | ['\\'] => []
  | '\\' :: n :: rest =>
    if isAlphanumeric n || n == '\x00' then [] else if quantified rest then [] else n :: prefixChars rest
  | c :: rest => if endsPrefix c then [] else if quantified rest then [] else c :: prefixChars rest

def regexPrefix (pattern options : String) : Option (List Char) :=
  if options ≠ "" ∨ '|' ∈ pattern.toList then none
  else
    match pattern.toList with
    | '^' :: rest => if prefixChars isAlphanumeric rest = [] then none else some (prefixChars isAlphanumeric rest)
    | _ => none

/-- The scan reads the pattern as the engine does: it takes no `\<` or `\>` for a character, and no character
    whose `+` has a quantifier behind it that lets it match nothing. -/
def readAsMatched : List Char → Bool
  | [] => true
  | ['\\'] => true
  | '\\' :: n :: rest =>
    if isAlphanumeric n || n == '\x00' then true else if quantified rest then true
    else n != '<' && n != '>' && !letsOut rest && readAsMatched rest
  | c :: rest =>
    if endsPrefix c then true else if quantified rest then true else !letsOut rest && readAsMatched rest

end Prefix

/-! ## The bounds -/

/-- `trusted_end`: a key of the value sorts where the value does, so that it can end a range. -/
def trustedEnd (o : BinDataOrder) (v : Bson) (desc : Bool) : Bool :=
  if (keyOf o v).isNone then false
  else
    match v with
    | .string s => !s.toList.contains '\x00' && !desc
    | .javaScriptCode s => !s.toList.contains '\x00' && !desc
    | .javaScriptCodeWithScope code _ => !code.toList.contains '\x00' && !desc
    | .regularExpression _ => !desc
    | .symbol _ => false
    | .undefined => false
    | .dbPointer _ _ => false
    | _ => true

/-- The next character: `char::from_u32` of the first code point above that is one. -/
def bumped (c : Char) : Option Char :=
  let n := c.toNat + 1
  if n < 0xD800 then some (Char.ofNat n)
  else if n < 0xE000 then some (Char.ofNat 0xE000)
  else if n < 0x110000 then some (Char.ofNat n)
  else none

/-- The strings with a prefix, where it bounds them: the ends, and whether the read is wide. -/
def prefixStretch (o : BinDataOrder) (chars : List Char) (desc : Bool) : Option Stretch := do
  let last ← chars.getLast?
  let b ← bumped last
  let lo : Bson := .string (String.ofList chars)
  let hi : Bson := .string (String.ofList (chars.dropLast ++ [b]))
  if trustedEnd o lo desc && trustedEnd o hi desc then do
    let loKey ← keyOf o lo
    let hiKey ← keyOf o hi
    some ⟨some (.key loKey), some (.key hiKey)⟩
  else none

/-- `regex`: the strings a regex can match, and a stored regex equal to it. -/
def regexBounds (isAlphanumeric : Char → Bool) (o : BinDataOrder) (pattern options : String) (desc : Bool) :
    Option (List Stretch × Bool) := do
  let bounded := (regexPrefix isAlphanumeric pattern options).bind fun chars => prefixStretch o chars desc
  let text := bounded.getD (.bracket (rank o (.string "")))
  let k ← keyOf o (.regularExpression ⟨pattern, options⟩)
  some ([text, .point k], bounded.isNone)

/-! ## What the prefix says -/

theorem prefixChars_plus (isAlphanumeric : Char → Bool) {rest : List Char} (h : rest.head? = some '+') :
    prefixChars isAlphanumeric rest = [] := by
  cases rest with
  | nil => rfl
  | cons c rest =>
    obtain rfl := Option.some.inj h
    rfl

theorem isMeta_of_endsPrefix {c : Char} (h : endsPrefix c = false) (hc : c ≠ '\\') : isMeta c = false := by
  obtain ⟨hmeta, -⟩ := Bool.or_eq_false_iff.mp h
  exact Bool.or_eq_false_iff.mpr ⟨hmeta, beq_eq_false_iff_ne.mpr hc⟩

/-- What a kept character says of the text, and of the text behind it. -/
theorem prefix_of_takes {E : Engine} {c : Char} {pattern before rest : List Char}
    (h : E.Takes c pattern before rest)
    (ih : ∀ rest', E.matchesFrom pattern (before ++ [c]) rest' → prefixChars E.isAlphanumeric pattern <+: rest') :
    c :: prefixChars E.isAlphanumeric pattern <+: rest := by
  obtain ⟨rest', rfl, hrest⟩ := h
  refine List.cons_prefix_cons.mpr ⟨rfl, ?_⟩
  by_cases hplus : pattern.head? = some '+'
  · rw [prefixChars_plus E.isAlphanumeric hplus]
    exact List.nil_prefix
  · exact ih rest' (hrest hplus)

theorem prefixChars_prefix {E : Engine} (hE : E.Standard) (pattern : List Char) {before rest : List Char}
    (hbar : '|' ∉ pattern) (hread : readAsMatched E.isAlphanumeric pattern = true)
    (hmatch : E.matchesFrom pattern before rest) : prefixChars E.isAlphanumeric pattern <+: rest := by
  fun_induction prefixChars E.isAlphanumeric pattern generalizing before rest with
  | case1 => exact List.nil_prefix
  | case2 => exact List.nil_prefix
  | case3 n rest' h => exact List.nil_prefix
  | case4 n rest' h hq => exact List.nil_prefix
  | case5 n rest' h hq ih =>
    obtain ⟨hn, -⟩ := Bool.or_eq_false_iff.mp (Bool.eq_false_iff.mpr h)
    rw [readAsMatched, if_neg h, if_neg hq] at hread
    simp only [Bool.and_eq_true, bne_iff_ne, Bool.not_eq_true'] at hread
    obtain ⟨⟨⟨hlt, hgt⟩, hout⟩, hread⟩ := hread
    have hbar : '|' ∉ rest' := fun hmem => hbar (List.mem_cons_of_mem _ (List.mem_cons_of_mem _ hmem))
    exact prefix_of_takes (hE.escaped n rest' before rest hn hlt hgt hbar hout hmatch)
      fun rest'' hrest => ih hbar hread hrest
  | case6 c rest' hne hne' h => exact List.nil_prefix
  | case7 c rest' hne hne' h hq => exact List.nil_prefix
  | case8 c rest' hne hne' h hq ih =>
    have hc : c ≠ '\\' := by
      rintro rfl
      cases rest' with
      | nil => exact hne rfl rfl
      | cons n rest' => exact hne' n rest' rfl rfl
    rw [readAsMatched, if_neg h, if_neg hq] at hread
    · simp only [Bool.and_eq_true, Bool.not_eq_true'] at hread
      obtain ⟨hout, hread⟩ := hread
      have hbar : '|' ∉ rest' := fun hmem => hbar (List.mem_cons_of_mem _ hmem)
      have hmeta := isMeta_of_endsPrefix (Bool.eq_false_iff.mpr h) hc
      exact prefix_of_takes (hE.literal c rest' before rest hmeta hbar hout hmatch)
        fun rest'' hrest => ih hbar hread hrest
    all_goals assumption

/-! ## What the bounds hold -/

theorem toNat_lt_bumped {c d : Char} (h : bumped c = some d) : c.toNat < d.toNat := by
  have hofNat : ∀ n : ℕ, n.isValidChar → (Char.ofNat n).toNat = n := by
    intro n hn
    rw [Char.ofNat, dif_pos hn]
    rfl
  unfold bumped at h
  extract_lets n at h
  split at h
  · rename_i hlt
    obtain rfl := Option.some.inj h
    rw [hofNat n (.inl hlt)]
    exact Nat.lt_succ_self _
  · split at h
    · rename_i hge hlt
      obtain rfl := Option.some.inj h
      rw [hofNat 0xE000 (.inr ⟨by decide, by decide⟩)]
      have hn : n = c.toNat + 1 := rfl
      omega
    · split at h
      · rename_i hge hlt
        obtain rfl := Option.some.inj h
        rw [hofNat n (.inr ⟨by omega, hlt⟩)]
        exact Nat.lt_succ_self _
      · cases h

theorem utf8_ofList (cs : List Char) : utf8 (String.ofList cs) = cs.flatMap String.utf8EncodeChar :=
  Library.bytesOf_ofList cs

theorem keyOf_string (o : BinDataOrder) (s : String) :
    keyOf o (.string s) = some ⟨rankString :: escape (utf8 s)⟩ := by
  unfold keyOf encodeValue
  rfl

/-- A text that goes on behind a prefix sorts below the prefix with a larger last character. -/
theorem escape_lt_bumped {front rest : List Char} {c d : Char} (h : c.toNat < d.toNat) :
    Key.mk (rankString :: escape (utf8 (String.ofList (front ++ c :: rest)))) <
      Key.mk (rankString :: escape (utf8 (String.ofList (front ++ [d])))) := by
  have hsettled : Settled .lt (front.flatMap String.utf8EncodeChar ++ String.utf8EncodeChar c)
      (front.flatMap String.utf8EncodeChar ++ String.utf8EncodeChar d) := by
    have hs := (settled_refl (front.flatMap String.utf8EncodeChar)).append (Library.settled_utf8EncodeChar h)
    rwa [Ordering.eq_then] at hs
  have htext : compare (utf8 (String.ofList (front ++ c :: rest))) (utf8 (String.ofList (front ++ [d]))) = .lt := by
    rw [utf8_ofList, utf8_ofList, List.flatMap_append, List.flatMap_append, List.flatMap_cons,
      List.flatMap_cons, List.flatMap_nil, ← List.append_assoc, ← List.append_assoc]
    rw [hsettled]
    rfl
  refine (Key.cons_lt_cons_iff _ _ _ _).mpr (.inr ⟨rfl, ?_⟩)
  rw [Key.lt_iff, (open_escape _ _).compare_eq, htext]

theorem holds_prefixStretch {o : BinDataOrder} {chars : List Char} {desc : Bool} {stretch : Stretch} {s : String}
    (h : prefixStretch o chars desc = some stretch) (hs : chars <+: s.toList) :
    stretch.Holds ⟨rankString :: escape (utf8 s)⟩ := by
  obtain ⟨last, hlast, h⟩ := Option.bind_eq_some_iff.mp h
  obtain ⟨b, hb, h⟩ := Option.bind_eq_some_iff.mp h
  extract_lets lo hi at h
  split at h
  · obtain ⟨loKey, hlo, h⟩ := Option.bind_eq_some_iff.mp h
    obtain ⟨hiKey, hhi, h⟩ := Option.bind_eq_some_iff.mp h
    obtain rfl := Option.some.inj h
    rw [keyOf_string] at hlo hhi
    obtain rfl := Option.some.inj hlo
    obtain rfl := Option.some.inj hhi
    obtain ⟨rest, hrest⟩ := hs
    have hfront : chars.dropLast ++ [last] = chars := List.dropLast_append_getLast? last hlast
    have htext : s = String.ofList (chars.dropLast ++ last :: rest) := by
      rw [List.append_cons, hfront, hrest, String.ofList_toList]
    have hescape : SortKey.escape (utf8 s) = SortKey.escape (utf8 (String.ofList chars)) ++
        SortKey.escape (rest.flatMap String.utf8EncodeChar) := by
      have happend := escape_append 0x00 0xFF (chars.flatMap String.utf8EncodeChar)
        (rest.flatMap String.utf8EncodeChar)
      rw [← List.flatMap_append, ← utf8_ofList, ← utf8_ofList, hrest, String.ofList_toList] at happend
      exact happend
    refine ⟨?_, fun e he => ?_⟩
    · rw [hescape]
      exact Key.le_append (rankString :: escape (utf8 (String.ofList chars))) _
    · obtain rfl := Option.some.inj he
      rw [htext]
      exact lt_trans (escape_lt_bumped (toNat_lt_bumped hb)) (Key.lt_append (by decide) _)
  · cases h

/-- The bounds of a regex hold the strings it matches, which start with the prefix it is read to have. -/
theorem regexBounds_sound {E : Engine} (hE : E.Standard) (o : BinDataOrder) {pattern options s : String}
    (hread : readAsMatched E.isAlphanumeric pattern.toList.tail = true) (hs : E.accepts pattern options s) :
    (∀ chars, regexPrefix E.isAlphanumeric pattern options = some chars → chars <+: s.toList) ∧
      ∀ desc stretches broad k, regexBounds E.isAlphanumeric o pattern options desc = some (stretches, broad) →
        encodeValue o (.string s) = .ok k → Held stretches ⟨k⟩ := by
  have hlead : ∀ chars, regexPrefix E.isAlphanumeric pattern options = some chars → chars <+: s.toList := by
    intro chars h
    unfold regexPrefix at h
    split at h
    · cases h
    · rename_i hplain
      obtain ⟨hoptions, hbar⟩ := not_or.mp hplain
      obtain rfl := not_not.mp hoptions
      split at h
      · rename_i rest hpattern
        rw [hpattern] at hread hbar
        split at h
        · cases h
        · obtain rfl := Option.some.inj h
          have hbar : '|' ∉ rest := fun hmem => hbar (List.mem_cons_of_mem _ hmem)
          exact prefixChars_prefix hE rest hbar hread (hE.anchor pattern s rest hpattern hbar hs)
      · cases h
  refine ⟨hlead, fun desc stretches broad k h hk => ?_⟩
  have hkey : k = rankString :: escape (utf8 s) := by
    have hk' := keyOf_string o s
    unfold keyOf at hk'
    rw [hk] at hk'
    exact congrArg Key.bytes (Option.some.inj hk')
  subst hkey
  unfold regexBounds at h
  extract_lets bounded text at h
  obtain ⟨re, -, h⟩ := Option.bind_eq_some_iff.mp h
  obtain ⟨rfl, -⟩ := Prod.mk.inj (Option.some.inj h)
  refine ⟨text, List.mem_cons_self, ?_⟩
  cases hb : bounded with
  | none =>
    have htext : text = .bracket (rank o (.string "")) := by simp only [text, hb, Option.getD_none]
    rw [htext]
    exact Stretch.holds_bracket (show rankString < rankString + 1 by decide) _
  | some stretch =>
    have htext : text = stretch := by simp only [text, hb, Option.getD_some]
    rw [htext]
    obtain ⟨chars, hchars, hstretch⟩ := Option.bind_eq_some_iff.mp hb
    exact holds_prefixStretch hstretch (hlead chars hchars)

/-! ## An engine for plain patterns -/

def isWord (c : Char) : Bool := c.isAlphanum || c == '_'

/-- Characters, escaped ones and the edges of words; no other pattern matches. -/
def plainRun : (pattern before rest : List Char) → Bool
  | [], _, _ => true
  | c :: pattern, before, rest =>
    if c = '\\' then
      match pattern with
      | [] => false
      | n :: pattern =>
        if n = '<' then
          !before.getLast?.any isWord && rest.head?.any isWord && plainRun pattern before rest
        else if n = '>' then
          before.getLast?.any isWord && !rest.head?.any isWord && plainRun pattern before rest
        else if n.isAlphanum then false
        else
          match rest with
          | [] => false
          | d :: rest => n == d && plainRun pattern (before ++ [n]) rest
    else if isMeta c then false
    else
      match rest with
      | [] => false
      | d :: rest => c == d && plainRun pattern (before ++ [c]) rest

def plainEngine : Engine where
  isAlphanumeric := Char.isAlphanum
  accepts pattern options s :=
    options = "" ∧ ∃ rest, pattern.toList = '^' :: rest ∧ plainRun rest [] s.toList = true
  matchesFrom pattern before rest := plainRun pattern before rest = true

theorem plainEngine_standard : plainEngine.Standard where
  anchor pattern s rest hpattern _ h := by
    obtain ⟨-, rest', hrest, hrun⟩ := h
    obtain rfl : rest = rest' := (List.cons.inj (hpattern.symm.trans hrest)).2
    exact hrun
  literal c pattern before rest hc _ _ h := by
    have hne : c ≠ '\\' := by
      rintro rfl
      cases hc
    have hrun : plainRun (c :: pattern) before rest = true := h
    unfold plainRun at hrun
    rw [if_neg hne, if_neg (by rw [hc]; decide)] at hrun
    cases rest with
    | nil => cases hrun
    | cons d rest =>
      obtain ⟨hd, hrun⟩ := Bool.and_eq_true_iff.mp hrun
      exact ⟨rest, by rw [eq_of_beq hd], fun _ => hrun⟩
  escaped c pattern before rest halnum hlt hgt _ _ h := by
    have hrun : plainRun ('\\' :: c :: pattern) before rest = true := h
    have halnum : c.isAlphanum = false := halnum
    unfold plainRun at hrun
    rw [if_pos rfl] at hrun
    dsimp only at hrun
    rw [if_neg hlt, if_neg hgt, if_neg (by rw [halnum]; decide)] at hrun
    cases rest with
    | nil => cases hrun
    | cons d rest =>
      obtain ⟨hd, hrun⟩ := Bool.and_eq_true_iff.mp hrun
      exact ⟨rest, by rw [eq_of_beq hd], fun _ => hrun⟩

theorem regexBounds_sound_dot :
    ['a', '.', 'b'] <+: "a.bc".toList := by
  have hs : plainEngine.accepts "^a\\.b" "" "a.bc" := ⟨rfl, _, rfl, by decide⟩
  exact (regexBounds_sound plainEngine_standard .mongod (by decide) hs).1 _ (by decide)

/-- `^\<foo` matches "foo", at the start of the word, and is bounded to the strings that start with "<foo". -/
theorem regexBounds_misses_word :
    plainEngine.accepts "^\\<foo" "" "foo" ∧
      regexPrefix Char.isAlphanum "^\\<foo" "" = some "<foo".toList ∧ ¬ "<foo".toList <+: "foo".toList ∧
      regexBounds Char.isAlphanum .mongod "^\\<foo" "" false =
        some ([⟨some (.key ⟨[4, 60, 102, 111, 111]⟩), some (.key ⟨[4, 60, 102, 111, 112]⟩)⟩,
          .point ⟨[12, 94, 92, 60, 102, 111, 111, 0, 0]⟩], false) ∧
      encodeValue .mongod (.string "foo") = .ok [4, 102, 111, 111] ∧
      ¬ Held [⟨some (.key ⟨[4, 60, 102, 111, 111]⟩), some (.key ⟨[4, 60, 102, 111, 112]⟩)⟩,
          .point ⟨[12, 94, 92, 60, 102, 111, 111, 0, 0]⟩] ⟨[4, 102, 111, 111]⟩ := by
  refine ⟨⟨rfl, _, rfl, by decide +kernel⟩, by decide, by decide, by decide +kernel, by rfl, ?_⟩
  rintro ⟨s, hs, hlo, hhi⟩
  rcases List.mem_cons.mp hs with rfl | hs
  · exact absurd (hhi _ rfl) (by decide)
  · obtain rfl := List.mem_singleton.mp hs
    exact absurd hlo (by decide)

end Secantus.ScanBounds
