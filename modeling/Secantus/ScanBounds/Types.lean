/-
  `$type` as bounds (scan_bounds.rs, `type_ranks`) against `$type` as a test (query.rs, `matches_type`).

  The two tables and the encoder's ranks agree but for JavaScript with a scope, whose keys have a rank of
  their own since entry format 5: `held_typeRanks_iff`.
-/
import Secantus.ScanBounds.Stretch

namespace Secantus.ScanBounds

open Secantus Bson BsonOrder SortKey

/-! ## The bounds -/

/-- `key`. -/
def keyOf (o : BinDataOrder) (v : Bson) : Option Key := (encodeValue o v).toOption.map Key.mk

/-- `rank`: the type rank of a value's key. -/
def rank (o : BinDataOrder) (v : Bson) : UInt8 := ((keyOf o v).map fun k => k.bytes.headD 0).getD 0

/-- The `i64` a double without a fraction is cast to. -/
def wholeI64 (d : F64) : Option ℤ :=
  if d.isFinite && d.scaled % 2 ^ 1074 == 0 then
    some (max (-2 ^ 63) (min (d.scaled / 2 ^ 1074) (2 ^ 63 - 1)))
  else none

/-- The type code an alias bounds as. -/
def aliasCode (name : String) : Option ℤ :=
  if name ∈ ["double", "int", "long", "decimal", "number"] then some 1
  else if name = "string" then some 2
  else if name = "object" then some 3
  else if name = "array" then some 4
  else if name = "binData" then some 5
  else if name = "objectId" then some 7
  else if name = "bool" then some 8
  else if name = "date" then some 9
  else if name = "null" then some 10
  else if name = "regex" then some 11
  else if name ∈ ["javascript", "javascriptWithScope"] then some 13
  else if name = "timestamp" then some 17
  else if name = "minKey" then some (-1)
  else if name = "maxKey" then some 127
  else none

def itemCode : Bson → Option ℤ
  | .string s => aliasCode s
  | .int32 n => some n.toInt
  | .int64 n => some n.toInt
  | .double d => wholeI64 d
  | _ => none

/-- The stretch of one type code; an array's is every key. -/
def codeStretch (o : BinDataOrder) (code : ℤ) : Option Stretch :=
  if code ∈ [1, 16, 18, 19] then some (.bracket (rank o (.int32 0)))
  else if code = 2 then some (.bracket (rank o (.string "")))
  else if code = 3 then some (.bracket (rank o (.document [])))
  else if code = 5 then some (.bracket (rank o (.binary ⟨0, [], by decide⟩)))
  else if code = 7 then some (.bracket (rank o (.objectId ⟨List.replicate 12 0, rfl⟩)))
  else if code = 8 then some (.bracket (rank o (.boolean false)))
  else if code = 9 then some (.bracket (rank o (.dateTime 0)))
  else if code = 10 then (keyOf o .null).map .point
  else if code = 11 then some (.bracket (rank o (.regularExpression ⟨"", ""⟩)))
  else if code ∈ [13, 15] then some (.bracket (rank o (.javaScriptCode "")))
  else if code = 17 then some (.bracket (rank o (.timestamp ⟨0, 0⟩)))
  else if code = -1 then (keyOf o .minKey).map .point
  else if code = 127 then (keyOf o .maxKey).map .point
  else none

def typeRanksFrom (o : BinDataOrder) (out : List Stretch) : List Bson → Option (List Stretch)
  | [] => if out.isEmpty then none else some out
  | item :: items => do
    let code ← itemCode item
    if code = 4 then some [.all]
    else do
      let s ← codeStretch o code
      typeRanksFrom o (out ++ [s]) items

/-- The aliases and codes of an operand, one or a list. -/
def specItems : Bson → List Bson
  | .array a => a
  | spec => [spec]

/-- `type_ranks`: the stretches `$type`'s argument reads; `none` is the whole index. -/
def typeRanks (o : BinDataOrder) (spec : Bson) : Option (List Stretch) := typeRanksFrom o [] (specItems spec)

/-! ## The test -/

/-- `decimal_to_i64_exact`, by the decimal's value. -/
def decimalToI64Exact (d : Decimal128) : Option ℤ :=
  match d.value with
  | .finite negative coeff exp =>
    let e := Decimal128.unbias exp
    let sign : ℤ := if negative then -1 else 1
    if coeff.val = 0 then some 0
    else if 0 ≤ e then
      let n : ℤ := coeff.val * 10 ^ e.toNat
      if n < 2 ^ 63 then some (sign * n) else none
    else if coeff.val % 10 ^ (-e).toNat = 0 then
      let n : ℤ := coeff.val / 10 ^ (-e).toNat
      if n < 2 ^ 63 then some (sign * n) else none
    else none
  | _ => none

/-- The code of an operand that is a number. -/
def specCode : Bson → Option ℤ
  | .int32 n => some n.toInt
  | .int64 n => some n.toInt
  | .double d => wholeI64 d
  | .decimal128 d => decimalToI64Exact d
  | _ => none

def rawTextTypeName : RawType → String
  | .regex => "regex"
  | .dbPointer => "dbPointer"
  | .javaScript => "javascript"
  | .symbol => "symbol"
  | .javaScriptScope => "javascriptWithScope"

/-- The type byte a carrier stands for. -/
def rawTextCode : RawType → ℤ
  | .regex => 0x0B
  | .dbPointer => 0x0C
  | .javaScript => 0x0D
  | .symbol => 0x0E
  | .javaScriptScope => 0x0F

def specName : Bson → Option String
  | .string s => some s
  | _ => none

/-- `is`: a value of the type, and the operand one of the type's names or codes. -/
def isType (spec : Bson) (names : List String) (codes : List ℤ) (hit : Bool) : Bool :=
  hit && ((specName spec).any (decide <| · ∈ names) || (specCode spec).any (decide <| · ∈ codes))

def isString (v : Bson) : Bool := (v matches .string _) || (asInvalidUtf8 v).isSome

/-- `matches_type`, for one alias or code. -/
def matchesType (v spec : Bson) : Bool :=
  isType spec ["double"] [1] (v matches .double _) ||
  isType spec ["string"] [2] (isString v) ||
  isType spec ["object"] [3] ((v matches .document _) && !isString v && (asRawText v).isNone) ||
  (asRawText v).any (fun (t, _) => isType spec [rawTextTypeName t] [rawTextCode t] true) ||
  isType spec ["array"] [4] (v matches .array _) ||
  isType spec ["binData"] [5] (v matches .binary _) ||
  isType spec ["objectId"] [7] (v matches .objectId _) ||
  isType spec ["bool"] [8] (v matches .boolean _) ||
  isType spec ["date"] [9] (v matches .dateTime _) ||
  isType spec ["null"] [10] (v matches .null) ||
  isType spec ["regex"] [11] (v matches .regularExpression _) ||
  isType spec ["int"] [16] (v matches .int32 _) ||
  isType spec ["long"] [18] (v matches .int64 _) ||
  isType spec ["decimal"] [19] (v matches .decimal128 _) ||
  isType spec ["undefined"] [6] (v matches .undefined) ||
  isType spec ["dbPointer"] [12] (v matches .dbPointer _ _) ||
  isType spec ["javascript"] [13] (v matches .javaScriptCode _) ||
  isType spec ["symbol"] [14] (v matches .symbol _) ||
  isType spec ["javascriptWithScope"] [15] (v matches .javaScriptCodeWithScope _ _) ||
  isType spec ["timestamp"] [17] (v matches .timestamp _) ||
  isType spec ["minKey"] [-1] (v matches .minKey) ||
  isType spec ["maxKey"] [127] (v matches .maxKey) ||
  isType spec ["number"] [] (v matches .int32 _ | .int64 _ | .double _ | .decimal128 _)

/-- `$type` on one value: any of the operand's items. -/
def opType (v spec : Bson) : Bool := (specItems spec).any (matchesType v)

/-! ## The codes of a value's types -/

theorem isType_false (spec : Bson) (names : List String) (codes : List ℤ) :
    isType spec names codes false = false := rfl

/-- The planner reads an item that names a type as one of the type's codes, or as its alias bounds. -/
theorem itemCode_of_isType {spec : Bson} {names : List String} {codes : List ℤ} {hit : Bool} {code : ℤ}
    (h : isType spec names codes hit = true) (hc : itemCode spec = some code) :
    code ∈ codes ∨ ∃ name ∈ names, aliasCode name = some code := by
  obtain ⟨-, h⟩ := Bool.and_eq_true_iff.mp h
  have hspec : ∀ c, itemCode spec = some c → specName spec = none → specCode spec = some c := by
    intro c hc hn
    cases spec <;> first
      | exact hc
      | cases hc
      | cases hn
  cases spec with
  | string s =>
    rcases Bool.or_eq_true_iff.mp h with h | h
    · exact .inr ⟨s, of_decide_eq_true h, hc⟩
    · cases h
  | _ =>
    rcases Bool.or_eq_true_iff.mp h with h | h
    · cases h
    · rw [hspec code hc rfl] at h
      exact .inl (of_decide_eq_true h)

/-! ## The stretches of the codes -/

theorem codeStretch_eq (o : BinDataOrder) (code : ℤ) :
    codeStretch o code =
      if code ∈ [1, 16, 18, 19] then some (.bracket rankNumber)
      else if code = 2 then some (.bracket rankString)
      else if code = 3 then some (.bracket rankDocument)
      else if code = 5 then some (.bracket rankBinData)
      else if code = 7 then some (.bracket rankObjectId)
      else if code = 8 then some (.bracket rankBool)
      else if code = 9 then some (.bracket rankDate)
      else if code = 10 then some (.point ⟨[rankNull]⟩)
      else if code = 11 then some (.bracket rankRegex)
      else if code ∈ [13, 15] then some (.bracket rankJavaScript)
      else if code = 17 then some (.bracket rankTimestamp)
      else if code = -1 then some (.point ⟨[rankMinKey]⟩)
      else if code = 127 then some (.point ⟨[if o = .format4 then format4RankMaxKey else rankMaxKey]⟩)
      else none := by
  unfold codeStretch
  rfl

/-- JavaScript with a scope. -/
def isScoped (v : Bson) : Bool :=
  match asRawText v with
  | some (t, _) => t = .javaScriptScope
  | none => v matches .javaScriptCodeWithScope _ _

/-- A code is read as the stretch, or as no bound. -/
def ReadAs (o : BinDataOrder) (s : Stretch) (code : ℤ) : Prop :=
  codeStretch o code = some s ∨ codeStretch o code = none

/-- A name and a code of a type are read as one stretch. -/
theorem holds_of_isType {o : BinDataOrder} {spec : Bson} {names : List String} {codes : List ℤ}
    {hit : Bool} {code : ℤ} {s shared : Stretch} {k : Key} (h : isType spec names codes hit = true)
    (hc : itemCode spec = some code) (hs : codeStretch o code = some s)
    (hnames : ∀ name ∈ names, ∀ c, aliasCode name = some c → ReadAs o shared c)
    (hcodes : ∀ c ∈ codes, ReadAs o shared c) (hk : shared.Holds k) : s.Holds k := by
  have hread : ReadAs o shared code := by
    rcases itemCode_of_isType h hc with hcode | ⟨name, hname, halias⟩
    · exact hcodes code hcode
    · exact hnames name hname code halias
  rcases hread with h' | h'
  · exact Option.some.inj (hs.symm.trans h') ▸ hk
  · cases hs.symm.trans h'

theorem forall_alias {P : ℤ → Prop} {name : String} {d : ℤ} (hname : aliasCode name = some d) (hd : P d) :
    ∀ n ∈ [name], ∀ c, aliasCode n = some c → P c := by
  refine List.forall_mem_singleton.mpr fun c hc => ?_
  rw [hname] at hc
  exact Option.some.inj hc ▸ hd

theorem holds_of_type {o : BinDataOrder} {spec : Bson} {name : String} {c d code : ℤ} {s shared : Stretch}
    {k : Key} (h : isType spec [name] [c] true = true) (hc : itemCode spec = some code)
    (hs : codeStretch o code = some s) (hname : aliasCode name = some d) (hd : ReadAs o shared d)
    (hcode : ReadAs o shared c) (hk : shared.Holds k) : s.Holds k :=
  holds_of_isType h hc hs (forall_alias hname hd) (List.forall_mem_singleton.mpr hcode) hk

theorem holds_of_rank {o : BinDataOrder} {spec : Bson} {name : String} {c code : ℤ} {s : Stretch} {body : Bytes}
    (h : isType spec [name] [c] true = true) (hc : itemCode spec = some code)
    (hs : codeStretch o code = some s) (d : ℤ) (rank : UInt8) (hrank : rank < rank + 1)
    (hname : aliasCode name = some d) (hd : ReadAs o (.bracket rank) d) (hcode : ReadAs o (.bracket rank) c) :
    s.Holds ⟨rank :: body⟩ :=
  holds_of_type h hc hs hname hd hcode (Stretch.holds_bracket hrank body)

theorem holds_of_unread {o : BinDataOrder} {spec : Bson} {name : String} {c code : ℤ} {s : Stretch} {k : Key}
    (h : isType spec [name] [c] true = true) (hc : itemCode spec = some code)
    (hs : codeStretch o code = some s) (hname : aliasCode name = none) (hcode : codeStretch o c = none) :
    s.Holds k := by
  rcases itemCode_of_isType h hc with hmem | ⟨n, hn, halias⟩
  · rw [List.mem_singleton.mp hmem, hcode] at hs
    cases hs
  · rw [List.mem_singleton.mp hn, hname] at halias
    cases halias

theorem holds_of_number {o : BinDataOrder} {spec : Bson} {name : String} {c code : ℤ} {s : Stretch}
    {body : Bytes} (hname : aliasCode name = some 1) (hcode : codeStretch o c = some (.bracket rankNumber))
    (h : isType spec [name] [c] true = true ∨ isType spec ["number"] [] true = true)
    (hc : itemCode spec = some code) (hs : codeStretch o code = some s) :
    s.Holds ⟨rankNumber :: body⟩ := by
  have hholds : (Stretch.bracket rankNumber).Holds ⟨rankNumber :: body⟩ :=
    Stretch.holds_bracket (by decide) body
  rcases h with h | h
  · exact holds_of_type h hc hs hname (.inl rfl) (.inl hcode) hholds
  · exact holds_of_isType h hc hs (forall_alias (by decide : aliasCode "number" = some 1) (.inl rfl)) nofun hholds

/-- Of the values `$type` finds, all but JavaScript with a scope are within the item's stretch. -/
theorem holds_of_matchesType {o : BinDataOrder} {v item : Bson} {k : Bytes} {code : ℤ} {s : Stretch}
    (hv : isScoped v = false) (hm : matchesType v item = true) (hk : encodeValue o v = .ok k)
    (hc : itemCode item = some code) (hs : codeStretch o code = some s) : s.Holds ⟨k⟩ := by
  unfold encodeValue at hk
  unfold isScoped at hv
  unfold matchesType at hm
  cases hr : asRawText v with
  | some p =>
    obtain ⟨t, raw⟩ := p
    rw [hr] at hk hv hm
    have hstring : isString v = false := by
      unfold isString
      rw [asInvalidUtf8_of_asRawText hr]
      cases v <;> first | rfl | cases hr
    cases v with
    | document d =>
      simp only [hstring, isType_false, Bool.or_false, Bool.false_or, Bool.and_false, Option.isNone_some,
        Option.any_some] at hm
      cases t with
      | regex =>
        obtain rfl := Except.ok.inj hk
        exact holds_of_rank hm hc hs 11 rankRegex (by decide) (by decide) (.inl rfl) (.inl rfl)
      | javaScript =>
        obtain rfl := Except.ok.inj hk
        exact holds_of_rank hm hc hs 13 rankJavaScript (by decide) (by decide) (.inl rfl) (.inl rfl)
      | symbol => exact holds_of_unread hm hc hs (by decide) rfl
      | dbPointer => cases hk
      | javaScriptScope => cases hv
    | _ => cases hr
  | none =>
    rw [hr] at hk hv hm
    cases hi : asInvalidUtf8 v with
    | some bytes =>
      rw [hi] at hk
      cases v with
      | document d =>
        simp only [isString, hi, isType_false, Bool.or_false, Bool.false_or, Bool.and_false, Option.isSome_some,
          Option.any_none, Bool.or_true, Bool.not_true, Bool.false_and] at hm
        obtain rfl := Except.ok.inj hk
        exact holds_of_rank hm hc hs 2 rankString (by decide) (by decide) (.inl rfl) (.inl rfl)
      | _ => cases hi
    | none =>
      rw [hi] at hk
      -- which types a value of each kind is asked for
      cases v
      all_goals try simp only [isString, hi, isType_false, Bool.or_false, Bool.false_or, Option.any_none,
        Option.isSome_none, Bool.false_and, Bool.or_eq_true, Bool.not_false, Bool.and_self, Option.isNone_none] at hm
      case int32 n =>
        obtain rfl := Except.ok.inj hk
        exact holds_of_number (by decide : aliasCode "int" = some 1) rfl hm hc hs
      case int64 n =>
        obtain rfl := Except.ok.inj hk
        exact holds_of_number (by decide : aliasCode "long" = some 1) rfl hm hc hs
      case double d =>
        obtain rfl := Except.ok.inj hk
        exact holds_of_number (by decide : aliasCode "double" = some 1) rfl hm hc hs
      case decimal128 d =>
        obtain rfl := Except.ok.inj hk
        exact holds_of_number (by decide : aliasCode "decimal" = some 1) rfl hm hc hs
      case javaScriptCodeWithScope code scope => cases hv
      case symbol t => cases hk
      case dbPointer ns id => cases hk
      case document d =>
        obtain ⟨x, -, hk⟩ := Outcome.bind_eq_ok.mp hk
        obtain rfl := Except.ok.inj hk
        exact holds_of_rank hm hc hs 3 rankDocument (by decide) (by decide) (.inl rfl) (.inl rfl)
      case array a =>
        exact holds_of_type hm hc hs (by decide : aliasCode "array" = some 4) (.inr rfl) (.inr rfl) (Stretch.holds_all _)
      case undefined =>
        exact holds_of_unread hm hc hs (by decide) rfl
      case null =>
        obtain rfl := Except.ok.inj hk
        exact holds_of_type hm hc hs (by decide : aliasCode "null" = some 10) (.inl rfl) (.inl rfl) (Stretch.holds_point _)
      case minKey =>
        obtain rfl := Except.ok.inj hk
        exact holds_of_type hm hc hs (by decide : aliasCode "minKey" = some (-1)) (.inl rfl) (.inl rfl)
          (Stretch.holds_point _)
      case maxKey =>
        obtain rfl := Except.ok.inj hk
        exact holds_of_type hm hc hs (by decide : aliasCode "maxKey" = some 127) (.inl rfl) (.inl rfl)
          (Stretch.holds_point _)
      case string t =>
        obtain rfl := Except.ok.inj hk
        exact holds_of_rank hm hc hs 2 rankString (by decide) (by decide) (.inl rfl) (.inl rfl)
      case binary b =>
        obtain rfl := Except.ok.inj hk
        exact holds_of_rank hm hc hs 5 rankBinData (by decide) (by decide) (.inl rfl) (.inl rfl)
      case objectId oid =>
        obtain rfl := Except.ok.inj hk
        exact holds_of_rank hm hc hs 7 rankObjectId (by decide) (by decide) (.inl rfl) (.inl rfl)
      case boolean b =>
        obtain rfl := Except.ok.inj hk
        exact holds_of_rank hm hc hs 8 rankBool (by decide) (by decide) (.inl rfl) (.inl rfl)
      case dateTime n =>
        obtain rfl := Except.ok.inj hk
        exact holds_of_rank hm hc hs 9 rankDate (by decide) (by decide) (.inl rfl) (.inl rfl)
      case regularExpression r =>
        obtain rfl := Except.ok.inj hk
        exact holds_of_rank hm hc hs 11 rankRegex (by decide) (by decide) (.inl rfl) (.inl rfl)
      case javaScriptCode c =>
        obtain rfl := Except.ok.inj hk
        exact holds_of_rank hm hc hs 13 rankJavaScript (by decide) (by decide) (.inl rfl) (.inl rfl)
      case timestamp t =>
        obtain rfl := Except.ok.inj hk
        exact holds_of_rank hm hc hs 17 rankTimestamp (by decide) (by decide) (.inl rfl) (.inl rfl)

/-! ## Operands -/

/-- Some item of the operand bounds as the code. -/
def HasCode (spec : Bson) (code : ℤ) : Prop := ∃ item ∈ specItems spec, itemCode item = some code

theorem typeRanksFrom_spec {o : BinDataOrder} : ∀ {items : List Bson} {out ss : List Stretch},
    typeRanksFrom o out items = some ss →
    ((∃ item ∈ items, itemCode item = some 4) → ss = [.all]) ∧
      ((∀ item ∈ items, itemCode item ≠ some 4) →
        (∀ s ∈ ss, s ∈ out ∨ ∃ item ∈ items, ∃ c, itemCode item = some c ∧ codeStretch o c = some s) ∧
        (∀ s ∈ out, s ∈ ss) ∧
        ∀ item ∈ items, ∃ c, itemCode item = some c ∧ ∃ s ∈ ss, codeStretch o c = some s)
  | [], out, ss, h => by
    unfold typeRanksFrom at h
    split at h
    · cases h
    · obtain rfl := Option.some.inj h
      exact ⟨fun ⟨_, h, _⟩ => (nomatch h), fun _ => ⟨fun s hs => .inl hs, fun s hs => hs, nofun⟩⟩
  | item :: items, out, ss, h => by
    unfold typeRanksFrom at h
    obtain ⟨c, hc, h⟩ := Option.bind_eq_some_iff.mp h
    split at h
    · rename_i h4
      subst h4
      obtain rfl := Option.some.inj h
      exact ⟨fun _ => rfl, fun hno => absurd hc (hno item List.mem_cons_self)⟩
    · rename_i hne
      obtain ⟨s, hs, h⟩ := Option.bind_eq_some_iff.mp h
      obtain ⟨harray, hother⟩ := typeRanksFrom_spec h
      have hcne : itemCode item ≠ some 4 := fun h4 => hne (Option.some.inj (hc.symm.trans h4))
      refine ⟨?_, fun hno => ?_⟩
      · rintro ⟨i, hi, h4⟩
        rcases List.mem_cons.mp hi with rfl | hi
        · exact absurd h4 hcne
        · exact harray ⟨i, hi, h4⟩
      · obtain ⟨hfrom, hout, hitems⟩ := hother fun i hi => hno i (List.mem_cons_of_mem _ hi)
        refine ⟨fun t ht => ?_, fun t ht => hout t (List.mem_append_left _ ht), fun i hi => ?_⟩
        · rcases hfrom t ht with ht | ⟨i, hi, hread⟩
          · rcases List.mem_append.mp ht with ht | ht
            · exact .inl ht
            · obtain rfl := List.mem_singleton.mp ht
              exact .inr ⟨item, List.mem_cons_self, c, hc, hs⟩
          · exact .inr ⟨i, List.mem_cons_of_mem _ hi, hread⟩
        · rcases List.mem_cons.mp hi with rfl | hi
          · exact ⟨c, hc, s, hout s (List.mem_append_right _ (List.mem_singleton_self s)), hs⟩
          · exact hitems i hi

/-- The stretches that hold a key of the scoped rank: MaxKey's in format 4, up to a byte `FF`. -/
theorem scopedRank_of_holds {o : BinDataOrder} {code : ℤ} {s : Stretch} {body : Bytes}
    (hs : codeStretch o code = some s) (h : s.Holds ⟨rankJavaScriptScope :: body⟩) :
    code = 127 ∧ o = .format4 ∧ body.head? ≠ some 0xFF := by
  have hbracket : ∀ {rank : UInt8}, rank ≠ rankJavaScriptScope → some (Stretch.bracket rank) = some s → False := by
    intro rank hne hsome
    obtain rfl := Option.some.inj hsome
    exact hne (Stretch.rank_of_holds_bracket h).symm
  have hpoint : ∀ {rank : UInt8}, some (Stretch.point ⟨[rank]⟩) = some s →
      rankJavaScriptScope = rank ∧ body.head? ≠ some 0xFF := by
    intro rank hsome
    obtain rfl := Option.some.inj hsome
    exact Stretch.holds_point_iff.mp h
  rw [codeStretch_eq] at hs
  iterate 7
    rcases ite_eq_iff.mp hs with ⟨-, hs⟩ | ⟨-, hs⟩
    · exact (hbracket (by decide) hs).elim
  rcases ite_eq_iff.mp hs with ⟨-, hs⟩ | ⟨-, hs⟩
  · exact absurd (hpoint hs).1 (by decide)
  iterate 3
    rcases ite_eq_iff.mp hs with ⟨-, hs⟩ | ⟨-, hs⟩
    · exact (hbracket (by decide) hs).elim
  rcases ite_eq_iff.mp hs with ⟨-, hs⟩ | ⟨-, hs⟩
  · exact absurd (hpoint hs).1 (by decide)
  rcases ite_eq_iff.mp hs with ⟨hmax, hs⟩ | ⟨-, hs⟩
  · obtain ⟨hrank, hhead⟩ := hpoint hs
    refine ⟨hmax, ?_, hhead⟩
    by_contra ho
    rw [if_neg ho] at hrank
    exact absurd hrank (by decide)
  · cases hs

/-- The values `$type` finds that its bounds hold: all but JavaScript with a scope; with it in format 4,
    where it is keyed as JavaScript (a raw text only next to MaxKey), and where the operand reads every
    key for an array. -/
def Bounded (o : BinDataOrder) (spec v : Bson) : Prop :=
  isScoped v = false ∨ HasCode spec 4 ∨
    o = .format4 ∧ ∀ p, asRawText v = some p → HasCode spec 127 ∧ p.2.head? ≠ some 0xFF

/-- The bounds of `$type` hold the key of a value it finds exactly when `Bounded` says so. -/
theorem held_typeRanks_iff {o : BinDataOrder} {spec v : Bson} {ss : List Stretch} {k : Bytes}
    (hb : typeRanks o spec = some ss) (hm : opType v spec = true) (hk : encodeValue o v = .ok k) :
    Held ss ⟨k⟩ ↔ Bounded o spec v := by
  obtain ⟨harray, hother⟩ := typeRanksFrom_spec hb
  by_cases h4 : HasCode spec 4
  · refine iff_of_true ⟨.all, ?_, Stretch.holds_all _⟩ (.inr (.inl h4))
    rw [harray h4]
    exact List.mem_singleton_self _
  obtain ⟨hfrom, -, hitems⟩ := hother fun item hi hc => h4 ⟨item, hi, hc⟩
  obtain ⟨item, hitem, hmatch⟩ := List.any_eq_true.mp hm
  obtain ⟨c, hc, s, hs, hstretch⟩ := hitems item hitem
  cases hv : isScoped v with
  | false => exact iff_of_true ⟨s, hs, holds_of_matchesType hv hmatch hk hc hstretch⟩ (.inl hv)
  | true =>
    have hheld : ∀ body, k = rankJavaScriptScope :: body → Held ss ⟨k⟩ →
        HasCode spec 127 ∧ o = .format4 ∧ body.head? ≠ some 0xFF := by
      rintro body rfl ⟨t, ht, hholds⟩
      obtain ⟨i, hi, d, hd, hread⟩ := (hfrom t ht).resolve_left (List.not_mem_nil)
      obtain ⟨rfl, ho, hhead⟩ := scopedRank_of_holds hread hholds
      exact ⟨⟨i, hi, hd⟩, ho, hhead⟩
    unfold Bounded
    rw [hv, or_iff_right Bool.noConfusion, or_iff_right h4]
    unfold encodeValue at hk
    unfold isScoped at hv
    cases hr : asRawText v with
    | some p =>
      obtain ⟨t, raw⟩ := p
      rw [hr] at hk hv
      obtain rfl : t = .javaScriptScope := of_decide_eq_true hv
      obtain rfl := Except.ok.inj hk
      have hhead : (escape raw).head? = raw.head? := by
        cases raw with
        | nil => rfl
        | cons b raw =>
          show (ByteOrder.escape 0x00 0xFF (b :: raw)).head? = some b
          unfold ByteOrder.escape
          split <;> rfl
      constructor
      · intro hholds
        obtain ⟨h127, ho, hne⟩ := hheld _ rfl hholds
        refine ⟨ho, fun p hp => ?_⟩
        obtain rfl := Option.some.inj hp
        exact ⟨h127, hhead ▸ hne⟩
      · rintro ⟨rfl, hall⟩
        obtain ⟨⟨i, hi, h127⟩, hne⟩ := hall _ rfl
        obtain ⟨d, hd, t, ht, hread⟩ := hitems i hi
        obtain rfl := Option.some.inj (hd.symm.trans h127)
        obtain rfl := Option.some.inj hread
        exact ⟨_, ht, Stretch.holds_point_iff.mpr ⟨rfl, hhead ▸ hne⟩⟩
    | none =>
      rw [hr] at hk hv
      cases v with
      | javaScriptCodeWithScope code scope =>
        dsimp only [asInvalidUtf8] at hk
        by_cases ho : o = .format4
        · rw [if_pos ho] at hk
          obtain rfl := Except.ok.inj hk
          refine iff_of_true ⟨s, hs, ?_⟩ ⟨ho, fun p hp => by cases hp⟩
          unfold matchesType at hmatch
          simp only [isString, asInvalidUtf8, hr, isType_false, Bool.or_false, Bool.false_or, Option.any_none,
            Option.isSome_none] at hmatch
          exact holds_of_rank hmatch hc hstretch 13 rankJavaScript (by decide) (by decide) (.inl rfl) (.inl rfl)
        · rw [if_neg ho] at hk
          obtain ⟨doc, -, hk⟩ := Outcome.bind_eq_ok.mp hk
          obtain rfl := Except.ok.inj hk
          exact iff_of_false (fun h => ho (hheld _ rfl h).2.1) fun h => ho h.1
      | _ => cases hv

theorem held_typeRanks_null : Held [.point ⟨[2]⟩, .bracket 4] ⟨[2]⟩ := by
  have hb : typeRanks .mongod (.array [.string "null", .int32 2]) = some [.point ⟨[2]⟩, .bracket 4] := by
    decide
  have hm : opType .null (.array [.string "null", .int32 2]) = true := by decide
  exact (held_typeRanks_iff hb hm rfl).mpr (.inl rfl)

/-- `{$type: "javascriptWithScope"}` reads the keys of JavaScript without a scope. -/
theorem typeRanks_misses_scoped :
    typeRanks .mongod (.string "javascriptWithScope") = some [.bracket 13] ∧
      opType (.javaScriptCodeWithScope "x" []) (.string "javascriptWithScope") = true ∧
      encodeValue .mongod (.javaScriptCodeWithScope "x" []) = .ok [14, 120, 0, 0, 0] ∧
      ¬ Held [.bracket 13] ⟨[14, 120, 0, 0, 0]⟩ := by
  refine ⟨by decide, by decide, by rfl, ?_⟩
  rintro ⟨s, hs, hholds⟩
  obtain rfl := List.mem_singleton.mp hs
  exact absurd (Stretch.rank_of_holds_bracket hholds) (by decide)

end Secantus.ScanBounds
