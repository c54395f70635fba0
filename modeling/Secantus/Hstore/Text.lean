/-
  `hstore` values as text (hstore.rs of secantus-pgplan): `parse`, `unique` and `render`.

  A value is a list of pairs, and a value in canonical form has distinct keys in the order of their lengths,
  then of their bytes. The parser is a state machine over bytes with another one for each word; a position
  is carried with what is left of the text.

  * `canonical_unique`, `unique_of_canonical`: `unique` puts pairs into canonical form and keeps one that
    is in it;
  * `filter_unique`: of each key it keeps the first pair;
  * `parse_render`: what is rendered parses back.
-/
import Secantus.Library.Utf8
import Mathlib.Data.List.Sort

namespace Secantus.Hstore

open Secantus.Library

/-- The errors of hstore.rs, and an index or a slice out of range. -/
inductive Error where
  | parse (message : String)
  | invalidText (message : String)
  | outOfRange
  deriving DecidableEq

/-- `Pairs`: `none` is a NULL value. -/
abbrev Pairs := List (String × Option String)

/-! ## Canonical form -/

/-- The order of keys: by length, then by bytes. -/
def keyCmp (a b : String) : Ordering :=
  (compare a.utf8ByteSize b.utf8ByteSize).then (compare (bytesOf a) (bytesOf b))

/-- The loop of `unique`: the first pair of each key. -/
def firsts : Pairs → Pairs → Pairs
  | out, [] => out
  | out, (k, v) :: pairs => if out.any (·.1 = k) then firsts out pairs else firsts (out ++ [(k, v)]) pairs

def unique (pairs : Pairs) : Pairs := (firsts [] pairs).mergeSort fun a b => (keyCmp a.1 b.1).isLE

/-- The canonical form of `Pairs`. -/
structure Canonical (pairs : Pairs) : Prop where
  distinct : (pairs.map (·.1)).Nodup
  ordered : pairs.Pairwise fun a b => (keyCmp a.1 b.1).isLE = true

instance : Std.TransCmp keyCmp :=
  inferInstanceAs (Std.TransCmp (compareLex (compareOn String.utf8ByteSize) (compareOn bytesOf)))

theorem filter_key_eq_nil {out : Pairs} {k : String} (h : ¬out.any (·.1 = k) = true) :
    out.filter (·.1 = k) = [] := by
  rw [List.filter_eq_nil_iff]
  intro p hp hk
  exact h (List.any_eq_true.mpr ⟨p, hp, hk⟩)

theorem firsts_nodup {out : Pairs} (hout : (out.map (·.1)).Nodup) (pairs : Pairs) :
    ((firsts out pairs).map (·.1)).Nodup := by
  induction pairs generalizing out with
  | nil => exact hout
  | cons pair pairs ih =>
    obtain ⟨k, v⟩ := pair
    rw [firsts]
    split
    · exact ih hout
    · rename_i hnew
      apply ih
      rw [List.map_append, List.nodup_append]
      refine ⟨hout, List.nodup_singleton _, ?_⟩
      rintro a ha b hb rfl
      obtain rfl : a = k := by simpa using hb
      obtain ⟨p, hp, rfl⟩ := List.mem_map.mp ha
      exact hnew (List.any_eq_true.mpr ⟨p, hp, by simp⟩)

/-- Of each key its first pair, whether it was there before or not. -/
theorem filter_firsts (k : String) (out pairs : Pairs) :
    (firsts out pairs).filter (·.1 = k) =
      if out.any (·.1 = k) then out.filter (·.1 = k) else (pairs.find? (·.1 = k)).toList := by
  induction pairs generalizing out with
  | nil =>
    rw [firsts]
    split
    · rfl
    · rename_i hnone
      exact filter_key_eq_nil hnone
  | cons pair pairs ih =>
    obtain ⟨k', v⟩ := pair
    rw [firsts]
    by_cases hk : k' = k
    · subst hk
      split
      · rename_i hold
        rw [ih, if_pos hold]
      · rename_i hnew
        rw [ih, if_pos (by simp), List.filter_append, filter_key_eq_nil hnew]
        simp
    · have hany : (out ++ [(k', v)]).any (·.1 = k) = out.any (·.1 = k) := by simp [hk]
      have hfind : ((k', v) :: pairs).find? (·.1 = k) = pairs.find? (·.1 = k) := by simp [hk]
      have hfilter : (out ++ [(k', v)]).filter (·.1 = k) = out.filter (·.1 = k) := by simp [hk]
      split
      · rw [ih, hfind]
      · rw [ih, hany, hfind, hfilter]

theorem firsts_of_nodup {out pairs : Pairs} (h : ((out ++ pairs).map (·.1)).Nodup) :
    firsts out pairs = out ++ pairs := by
  induction pairs generalizing out with
  | nil => simp [firsts]
  | cons pair pairs ih =>
    obtain ⟨k, v⟩ := pair
    have hnew : ¬out.any (·.1 = k) = true := by
      intro hold
      obtain ⟨p, hp, hpk⟩ := List.any_eq_true.mp hold
      rw [List.map_append, List.nodup_append] at h
      refine h.2.2 p.1 (List.mem_map_of_mem hp) k ?_ (of_decide_eq_true hpk)
      simp
    rw [firsts, if_neg hnew, ih (by simpa using h), List.append_assoc]
    rfl

theorem firsts_sublist (out pairs : Pairs) : (firsts out pairs).Sublist (out ++ pairs) := by
  induction pairs generalizing out with
  | nil => simp [firsts]
  | cons pair pairs ih =>
    rw [firsts]
    split
    · exact (ih out).trans ((List.Sublist.refl out).append (List.sublist_cons_self _ _))
    · have := ih (out ++ [pair])
      rwa [List.append_assoc] at this

theorem unique_perm (pairs : Pairs) : (unique pairs).Perm (firsts [] pairs) := List.mergeSort_perm _ _

theorem canonical_unique (pairs : Pairs) : Canonical (unique pairs) where
  distinct := by
    have hnil : (([] : Pairs).map (·.1)).Nodup := List.nodup_nil
    exact ((unique_perm pairs).map _).nodup_iff.mpr (firsts_nodup hnil pairs)
  ordered := by
    apply List.pairwise_mergeSort
    · intro a b c hab hbc
      exact Std.TransCmp.isLE_trans hab hbc
    · intro a b
      have hswap : keyCmp b.1 a.1 = (keyCmp a.1 b.1).swap := Std.OrientedCmp.eq_swap
      rw [hswap]
      cases keyCmp a.1 b.1 <;> rfl

theorem unique_of_canonical {pairs : Pairs} (h : Canonical pairs) : unique pairs = pairs := by
  have hfirsts : firsts [] pairs = [] ++ pairs := firsts_of_nodup h.distinct
  rw [unique, hfirsts, List.nil_append]
  exact List.mergeSort_of_pairwise h.ordered

theorem filter_unique (pairs : Pairs) (k : String) :
    (unique pairs).filter (·.1 = k) = (pairs.find? (·.1 = k)).toList := by
  have hperm := (unique_perm pairs).filter (·.1 = k)
  rw [filter_firsts] at hperm
  cases hfind : pairs.find? (·.1 = k) with
  | none =>
    rw [hfind] at hperm
    exact List.perm_nil.mp hperm
  | some pair =>
    rw [hfind] at hperm
    exact List.perm_singleton.mp hperm

/-! ## The parser -/

/-- `u8::is_ascii_whitespace`. -/
def isAsciiWhitespace (b : UInt8) : Bool := b ∈ [0x20, 0x09, 0x0A, 0x0C, 0x0D]

def unexpectedEnd : Error := .parse "syntax error in hstore: unexpected end of string"

/-- The character `rest` starts with, as `syntax_near` looks for it. -/
def charNear (rest : List UInt8) : String :=
  let prefixes := rest :: rest.take 4 :: (List.range (min rest.length 4)).map fun n => rest.take (n + 1)
  (((prefixes.findSome? fromUtf8?).bind (·.toList.head?)).map Char.toString).getD ""

def syntaxNear (pos : ℕ) (rest : List UInt8) : Error :=
  .parse ("syntax error in hstore, near \"" ++ charNear rest ++ "\" at position " ++ toString pos)

/-- The states of `get_val`. -/
inductive WordState where
  | waitVal
  | inVal
  | inEscVal
  | waitEscIn
  | waitEscEscIn
  deriving DecidableEq

/-- A word, whether it was quoted, and where the parser goes on. -/
structure Word where
  text : String
  escaped : Bool
  pos : ℕ
  rest : List UInt8

def finish (word : List UInt8) : String := (fromUtf8? word).getD (String.ofList (fromUtf8Lossy word))

/-- `get_val`. The source steps back over what ends a bare word, and its caller steps forward. -/
def getVal (ignoreeq : Bool) (st : WordState) (word : List UInt8) (escaped : Bool) (pos : ℕ) :
    List UInt8 → Except Error (Option Word)
  | [] =>
    match st with
    | .waitVal => .ok none
    | .inVal => .ok (some ⟨finish word, escaped, pos, []⟩)
    | _ => .error unexpectedEnd
  | c :: rest =>
    match st with
    | .waitVal =>
      if c = 0x22 then getVal ignoreeq .inEscVal word true (pos + 1) rest
      else if c = 0x3D ∧ !ignoreeq then .error (syntaxNear pos (c :: rest))
      else if c = 0x5C then getVal ignoreeq .waitEscIn word escaped (pos + 1) rest
      else if !isAsciiWhitespace c then getVal ignoreeq .inVal (word ++ [c]) escaped (pos + 1) rest
      else getVal ignoreeq .waitVal word escaped (pos + 1) rest
    | .inVal =>
      if c = 0x5C then getVal ignoreeq .waitEscIn word escaped (pos + 1) rest
      else if c = 0x3D ∧ !ignoreeq then .ok (some ⟨finish word, escaped, pos, c :: rest⟩)
      else if c = 0x2C ∧ ignoreeq then .ok (some ⟨finish word, escaped, pos, c :: rest⟩)
      else if isAsciiWhitespace c then .ok (some ⟨finish word, escaped, pos + 1, rest⟩)
      else getVal ignoreeq .inVal (word ++ [c]) escaped (pos + 1) rest
    | .inEscVal =>
      if c = 0x5C then getVal ignoreeq .waitEscEscIn word escaped (pos + 1) rest
      else if c = 0x22 then .ok (some ⟨finish word, escaped, pos + 1, rest⟩)
      else getVal ignoreeq .inEscVal (word ++ [c]) escaped (pos + 1) rest
    | .waitEscIn => getVal ignoreeq .inVal (word ++ [c]) escaped (pos + 1) rest
    | .waitEscEscIn => getVal ignoreeq .inEscVal (word ++ [c]) escaped (pos + 1) rest

/-- A word ends within what was left, and after something of it unless it had begun. -/
theorem getVal_rest {ignoreeq : Bool} {st : WordState} {word : List UInt8} {escaped : Bool} {pos : ℕ}
    {bs : List UInt8} {w : Word} (h : getVal ignoreeq st word escaped pos bs = .ok (some w)) :
    w.rest.length ≤ bs.length ∧ (st ≠ .inVal → w.rest.length < bs.length) := by
  induction bs generalizing st word escaped pos with
  | nil =>
    cases st <;> cases h
    simp
  | cons c bs ih =>
    have step : ∀ {st' : WordState} {word' : List UInt8} {escaped' : Bool},
        getVal ignoreeq st' word' escaped' (pos + 1) bs = .ok (some w) →
          w.rest.length < (c :: bs).length := fun h' => Nat.lt_succ_of_le (ih h').1
    have hlt : w.rest.length < (c :: bs).length ∨
        (st = .inVal ∧ w.rest.length = (c :: bs).length) := by
      rw [getVal.eq_def] at h
      cases st with
      | waitVal =>
        dsimp only at h
        split_ifs at h
        all_goals exact .inl (step h)
      | inVal =>
        dsimp only at h
        split_ifs at h
        · exact .inl (step h)
        · cases h; exact .inr ⟨rfl, rfl⟩
        · cases h; exact .inr ⟨rfl, rfl⟩
        · cases h; exact .inl (Nat.lt_succ_self _)
        · exact .inl (step h)
      | inEscVal =>
        dsimp only at h
        split_ifs at h
        · exact .inl (step h)
        · cases h; exact .inl (Nat.lt_succ_self _)
        · exact .inl (step h)
      | waitEscIn => exact .inl (step h)
      | waitEscEscIn => exact .inl (step h)
    rcases hlt with hlt | ⟨rfl, heq⟩
    · exact ⟨hlt.le, fun _ => hlt⟩
    · exact ⟨heq.le, fun hne => absurd rfl hne⟩

/-- The states of `parse`. -/
inductive ParseState where
  | wkey
  | weq
  | wgt
  | wval
  | wdel
  deriving DecidableEq

/-- An unquoted `null`. -/
def readValue (w : Word) : Option String :=
  if !w.escaped ∧ w.text.toList.map Char.toLower = "null".toList then none else some w.text

/-- The loop of `parse`. -/
def parseLoop (st : ParseState) (key : String) (pairs : Pairs) (pos : ℕ) (bs : List UInt8) :
    Except Error Pairs :=
  match st, bs with
  | .wkey, bs =>
    match hw : getVal false .waitVal [] false pos bs with
    | .error e => .error e
    | .ok none => .ok pairs
    | .ok (some w) =>
      have := (getVal_rest hw).2 (by decide)
      parseLoop .weq w.text pairs w.pos w.rest
  | .weq, [] => .error unexpectedEnd
  | .weq, c :: rest =>
    if c = 0x3D then parseLoop .wgt key pairs (pos + 1) rest
    else if !isAsciiWhitespace c then .error (syntaxNear pos (c :: rest))
    else parseLoop .weq key pairs (pos + 1) rest
  | .wgt, [] => .error unexpectedEnd
  | .wgt, c :: rest =>
    if c = 0x3E then parseLoop .wval key pairs (pos + 1) rest
    else .error (syntaxNear pos (c :: rest))
  | .wval, bs =>
    match hw : getVal true .waitVal [] false pos bs with
    | .error e => .error e
    | .ok none => .error unexpectedEnd
    | .ok (some w) =>
      have := (getVal_rest hw).2 (by decide)
      parseLoop .wdel "" (pairs ++ [(key, readValue w)]) w.pos w.rest
  | .wdel, [] => .ok pairs
  | .wdel, c :: rest =>
    if c = 0x2C then parseLoop .wkey key pairs (pos + 1) rest
    else if !isAsciiWhitespace c then .error (syntaxNear pos (c :: rest))
    else parseLoop .wdel key pairs (pos + 1) rest
termination_by bs.length

def parse (text : String) : Except Error Pairs := (parseLoop .wkey "" [] 0 (bytesOf text)).map unique

/-! ## The renderer -/

/-- A character of a quoted word. -/
def escapeChar (c : Char) : List Char := if c = '\"' ∨ c = '\\' then ['\\', c] else [c]

def pushQuoted (s : String) : String := "\"" ++ String.ofList (s.toList.flatMap escapeChar) ++ "\""

def renderValue : Option String → String
  | some v => pushQuoted v
  | none => "NULL"

/-- One pair. -/
def renderPair (pair : String × Option String) : String :=
  pushQuoted pair.1 ++ "=>" ++ renderValue pair.2

/-- The pairs after the first. -/
def renderRest : Pairs → String
  | [] => ""
  | pair :: pairs => ", " ++ renderPair pair ++ renderRest pairs

def render : Pairs → String
  | [] => ""
  | pair :: pairs => renderPair pair ++ renderRest pairs

def canonical (text : String) : Except Error String := (parse text).map render

/-! ## The round trip -/

@[simp] theorem finish_bytesOf (s : String) : finish (bytesOf s) = s := by
  rw [finish, fromUtf8?_bytesOf]
  rfl

/-- Bytes that are neither a quote nor a backslash join a quoted word. -/
theorem getVal_push (ignoreeq escaped : Bool) {bs : List UInt8} (h : 0x5C ∉ bs ∧ 0x22 ∉ bs)
    (word : List UInt8) (pos : ℕ) (rest : List UInt8) :
    getVal ignoreeq .inEscVal word escaped pos (bs ++ rest) =
      getVal ignoreeq .inEscVal (word ++ bs) escaped (pos + bs.length) rest := by
  induction bs generalizing word pos with
  | nil => simp
  | cons b bs ih =>
    simp only [List.mem_cons, not_or] at h
    rw [List.cons_append, getVal.eq_def]
    dsimp only
    rw [if_neg (Ne.symm h.1.1), if_neg (Ne.symm h.2.1), ih ⟨h.1.2, h.2.2⟩, List.append_assoc,
      List.length_cons, Nat.add_assoc, Nat.add_comm 1]
    rfl

/-- An escaped character joins a quoted word as itself. -/
theorem getVal_escapeChar (ignoreeq escaped : Bool) (c : Char) (word : List UInt8) (pos : ℕ)
    (rest : List UInt8) :
    getVal ignoreeq .inEscVal word escaped pos ((escapeChar c).flatMap String.utf8EncodeChar ++ rest) =
      getVal ignoreeq .inEscVal (word ++ String.utf8EncodeChar c) escaped
        (pos + ((escapeChar c).flatMap String.utf8EncodeChar).length) rest := by
  unfold escapeChar
  split
  · rename_i hc
    rcases hc with rfl | rfl <;> rfl
  · rename_i hc
    rw [not_or] at hc
    have hone : [c].flatMap String.utf8EncodeChar = String.utf8EncodeChar c := by simp
    rw [hone]
    apply getVal_push
    constructor
    · intro hmem
      exact hc.2 (Char.ext (UInt32.toNat_inj.mp (utf8EncodeChar_of_mem hmem (by decide)).2))
    · intro hmem
      exact hc.1 (Char.ext (UInt32.toNat_inj.mp (utf8EncodeChar_of_mem hmem (by decide)).2))

theorem getVal_quotedBody (ignoreeq escaped : Bool) (cs : List Char) (word : List UInt8) (pos : ℕ)
    (rest : List UInt8) :
    getVal ignoreeq .inEscVal word escaped pos
        ((cs.flatMap escapeChar).flatMap String.utf8EncodeChar ++ 0x22 :: rest) =
      .ok (some ⟨finish (word ++ cs.flatMap String.utf8EncodeChar), escaped,
        pos + ((cs.flatMap escapeChar).flatMap String.utf8EncodeChar).length + 1, rest⟩) := by
  induction cs generalizing word pos with
  | nil => simp [getVal]
  | cons c cs ih =>
    rw [List.flatMap_cons, List.flatMap_append, List.append_assoc, getVal_escapeChar, ih,
      List.flatMap_cons, List.append_assoc, List.length_append, Nat.add_assoc pos]

theorem bytesOf_pushQuoted (s : String) :
    bytesOf (pushQuoted s) =
      0x22 :: ((s.toList.flatMap escapeChar).flatMap String.utf8EncodeChar ++ [0x22]) := by
  have hquote : bytesOf "\"" = [0x22] := rfl
  rw [pushQuoted, bytesOf_append, bytesOf_append, hquote, bytesOf_ofList]
  rfl

theorem getVal_pushQuoted (ignoreeq : Bool) (s : String) (pos : ℕ) (rest : List UInt8) :
    ∃ pos', getVal ignoreeq .waitVal [] false pos (bytesOf (pushQuoted s) ++ rest) =
      .ok (some ⟨s, true, pos', rest⟩) := by
  have hbody := getVal_quotedBody ignoreeq true s.toList [] (pos + 1) rest
  rw [List.nil_append, ← bytesOf_toList, finish_bytesOf] at hbody
  have hopen : getVal ignoreeq .waitVal [] false pos (bytesOf (pushQuoted s) ++ rest) =
      getVal ignoreeq .inEscVal [] true (pos + 1)
        ((s.toList.flatMap escapeChar).flatMap String.utf8EncodeChar ++ 0x22 :: rest) := by
    rw [bytesOf_pushQuoted, List.cons_append, List.append_assoc, getVal.eq_def]
    rfl
  exact ⟨_, hopen.trans hbody⟩

/-- What stands behind a pair: nothing, or a comma. -/
def Delimits : List UInt8 → Prop
  | [] => True
  | c :: _ => c = 0x2C

theorem getVal_null (pos : ℕ) {rest : List UInt8} (h : Delimits rest) :
    getVal true .waitVal [] false pos (bytesOf "NULL" ++ rest) =
      .ok (some ⟨"NULL", false, pos + 4, rest⟩) := by
  have hword : finish [0x4E, 0x55, 0x4C, 0x4C] = "NULL" := finish_bytesOf "NULL"
  have hbytes : bytesOf "NULL" = [0x4E, 0x55, 0x4C, 0x4C] := rfl
  rw [hbytes]
  cases rest with
  | nil =>
    rw [← hword]
    rfl
  | cons c rest =>
    obtain rfl : c = 0x2C := h
    rw [← hword]
    rfl

section Loop

variable {key : String} {pairs : Pairs} {pos : ℕ} {bs : List UInt8} {w : Word}

theorem parseLoop_wkey (h : getVal false .waitVal [] false pos bs = .ok (some w)) :
    parseLoop .wkey key pairs pos bs = parseLoop .weq w.text pairs w.pos w.rest := by
  rw [parseLoop.eq_def]
  dsimp only
  split
  · rename_i he; rw [h] at he; cases he
  · rename_i he; rw [h] at he; cases he
  · rename_i he; rw [h] at he; cases he; rfl

variable (key pairs) in
theorem parseLoop_wval (h : getVal true .waitVal [] false pos bs = .ok (some w)) :
    parseLoop .wval key pairs pos bs =
      parseLoop .wdel "" (pairs ++ [(key, readValue w)]) w.pos w.rest := by
  rw [parseLoop.eq_def]
  dsimp only
  split
  · rename_i he; rw [h] at he; cases he
  · rename_i he; rw [h] at he; cases he
  · rename_i he; rw [h] at he; cases he; rfl

theorem parseLoop_arrow : parseLoop .weq key pairs pos (0x3D :: 0x3E :: bs) =
    parseLoop .wval key pairs (pos + 2) bs := by
  rw [parseLoop.eq_def]
  dsimp only
  rw [if_pos rfl, parseLoop.eq_def]
  dsimp only
  rw [if_pos rfl]

variable (key pairs pos) in
/-- One rendered pair is read, with a blank before it or not. -/
theorem parseLoop_pair (pair : String × Option String) (blank : Bool) {rest : List UInt8}
    (h : Delimits rest) :
    ∃ pos', parseLoop .wkey key pairs pos
        ((if blank then [0x20] else []) ++ (bytesOf (renderPair pair) ++ rest)) =
      parseLoop .wdel "" (pairs ++ [pair]) pos' rest := by
  obtain ⟨k, v⟩ := pair
  have harrow : bytesOf "=>" = [0x3D, 0x3E] := rfl
  have hbytes : bytesOf (renderPair (k, v)) ++ rest =
      bytesOf (pushQuoted k) ++ (0x3D :: 0x3E :: (bytesOf (renderValue v) ++ rest)) := by
    rw [renderPair, bytesOf_append, bytesOf_append, harrow, List.append_assoc, List.append_assoc]
    rfl
  obtain ⟨pos', hkey⟩ : ∃ pos', getVal false .waitVal [] false pos
      ((if blank then [0x20] else []) ++ (bytesOf (renderPair (k, v)) ++ rest)) =
        .ok (some ⟨k, true, pos', 0x3D :: 0x3E :: (bytesOf (renderValue v) ++ rest)⟩) := by
    rw [hbytes]
    cases blank with
    | false => exact getVal_pushQuoted false k pos _
    | true => exact getVal_pushQuoted false k (pos + 1) _
  rw [parseLoop_wkey hkey, parseLoop_arrow]
  cases v with
  | none =>
    have hnull : readValue ⟨"NULL", false, pos' + 2 + 4, rest⟩ = none := by
      have hlower : "NULL".toList.map Char.toLower = "null".toList := by decide
      rw [readValue, if_pos ⟨rfl, hlower⟩]
    have hval := parseLoop_wval k pairs (getVal_null (pos' + 2) h)
    rw [hnull] at hval
    exact ⟨_, hval⟩
  | some v =>
    obtain ⟨pos'', hval⟩ := getVal_pushQuoted true v (pos' + 2) rest
    exact ⟨_, parseLoop_wval _ _ hval⟩

theorem delimits_renderRest (ps : Pairs) : Delimits (bytesOf (renderRest ps)) := by
  cases ps with
  | nil => trivial
  | cons p ps =>
    rw [renderRest, bytesOf_append, bytesOf_append, List.append_assoc]
    rfl

theorem parseLoop_renderRest (ps : Pairs) :
    parseLoop .wdel key pairs pos (bytesOf (renderRest ps)) = .ok (pairs ++ ps) := by
  induction ps generalizing key pairs pos with
  | nil =>
    rw [parseLoop.eq_def]
    simp [renderRest, bytesOf]
  | cons p ps ih =>
    have hbytes : bytesOf (renderRest (p :: ps)) =
        0x2C :: ([0x20] ++ (bytesOf (renderPair p) ++ bytesOf (renderRest ps))) := by
      rw [renderRest, bytesOf_append, bytesOf_append, List.append_assoc]
      rfl
    obtain ⟨pos', hpair⟩ := parseLoop_pair key pairs (pos + 1) p true
      (delimits_renderRest ps)
    rw [hbytes, parseLoop.eq_def]
    dsimp only
    rw [if_pos rfl]
    refine hpair.trans ?_
    rw [ih, List.append_assoc]
    rfl

end Loop

theorem parse_render {pairs : Pairs} (h : Canonical pairs) : parse (render pairs) = .ok pairs := by
  have hloop : parseLoop .wkey "" [] 0 (bytesOf (render pairs)) = .ok pairs := by
    cases pairs with
    | nil =>
      rw [parseLoop.eq_def]
      rfl
    | cons p ps =>
      obtain ⟨pos', hpair⟩ := parseLoop_pair "" [] 0 p false
        (delimits_renderRest ps)
      rw [render, bytesOf_append]
      refine hpair.trans ?_
      rw [parseLoop_renderRest]
      rfl
  rw [parse, hloop, Except.map, unique_of_canonical h]

end Secantus.Hstore
