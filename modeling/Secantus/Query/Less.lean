/-
  The `<` of the matcher against the comparator (`order.rs`): `bson_lt` and `cmp`.

  The two walk two values alike. They part where one value is a raw text carrier and the other is not
  that same carrier: `cmp` then compares texts (`raw_text_cmp`), and `bson_lt`, which knows carriers of
  strings only, takes two carriers for the documents they are and declines on a carrier and a plain
  value (`rawVerdict`). `parting` is the first such pair the walk reaches.

  * `agree`: without such a pair the two agree on both directions; with one, each says what it says of
    the pair;
  * `bsonLt_iff_cmp`: so `bson_lt` is the less of `cmp` unless the pair is told apart otherwise.
-/
import Secantus.Query.Compare
import Secantus.BsonOrder.Preorder

namespace Secantus.Query

open Secantus Bson BsonOrder

mutual

/-- No DBPointer, undefined or symbol in a value, at any depth of documents and arrays. -/
def ordinary : Bson → Bool
  | .dbPointer _ _ | .undefined | .symbol _ => false
  | .document d => ordinaryFields d
  | .array a => ordinaryElements a
  | _ => true

def ordinaryFields : Document → Bool
  | [] => true
  | (_, v) :: d => ordinary v && ordinaryFields d

def ordinaryElements : List Bson → Bool
  | [] => true
  | v :: a => ordinary v && ordinaryElements a

end

/-- What `bson_lt` makes of two values of one rank of which one is a raw text carrier: two carriers are
    documents of one field, and a carrier and another value nothing it orders. -/
def rawVerdict (o : BinDataOrder) (a b : Bson) : Option Bool :=
  match a, b with
  | .document [(k, .binary x)], .document [(l, .binary y)] =>
    some (if k = l then bindataCmp o x y == .lt else compare (utf8 k) (utf8 l) == .lt)
  | _, _ => none

mutual

/-- The first pair two values are walked to of which one is a raw text carrier and the other is not the
    same one, everything before it being equal in the order. -/
def parting (o : BinDataOrder) (a b : Bson) : Option (Bson × Bson) :=
  if typeRank a ≠ typeRank b then none
  else if asRawText a ≠ asRawText b then some (a, b)
  else
    match a, b with
    | .document x, .document y => partingFields o x y
    | .array x, .array y => partingElements o x y
    | _, _ => none

def partingFields (o : BinDataOrder) : Document → Document → Option (Bson × Bson)
  | (k, v) :: x, (l, w) :: y =>
    if typeRank v ≠ typeRank w ∨ k ≠ l then none
    else
      match parting o v w with
      | some p => some p
      | none => if BsonOrder.cmp o v w = .eq then partingFields o x y else none
  | _, _ => none

def partingElements (o : BinDataOrder) : List Bson → List Bson → Option (Bson × Bson)
  | v :: x, w :: y =>
    match parting o v w with
    | some p => some p
    | none => if BsonOrder.cmp o v w = .eq then partingElements o x y else none
  | _, _ => none

end

/-! ## `bson_lt`, one level -/

theorem ltRank_ordinary {v : Bson} (h : ordinary v = true) : ltRank v = typeRank v := by
  cases v with
  | symbol s => simp [ordinary] at h
  | undefined => simp [ordinary] at h
  | _ => rfl

/-- What `bson_lt` compares in two values of one rank that are not both strings. -/
def inside (o : BinDataOrder) (a b : Bson) : Option Bool :=
  match a, b with
  | .document x, .document y => bsonLtFields o x y
  | .array x, .array y => bsonLtElements o x y
  | a, b => scalarLt o a b

/-- One level of `bson_lt`. -/
theorem bsonLt_level {o : BinDataOrder} {a b : Bson} (ha : ordinary a = true) (hb : ordinary b = true) :
    bsonLt o a b =
      if typeRank a ≠ typeRank b then some (decide (typeRank a < typeRank b))
      else if typeRank a = typeRank .null then some false
      else
        match carrierPair a b with
        | some (x, y) => some (compare x y == .lt)
        | none => inside o a b := by
  rw [bsonLt.eq_def]
  split
  · simp [ordinary] at ha
  · simp [ordinary] at ha
  · simp [ordinary] at hb
  · rw [ltRank_ordinary ha, ltRank_ordinary hb]
    rfl

theorem scalarLt_number {o : BinDataOrder} {a b : Bson} {p q : Quantity} (ha : quantity a = some p)
    (hb : quantity b = some q) : scalarLt o a b = some (p.cmp q == .lt) := by
  have hna := Numeric.isNanBson_spec a
  have hnb := Numeric.isNanBson_spec b
  rw [ha, Option.some.injEq] at hna
  rw [hb, Option.some.injEq] at hnb
  have hshape : scalarLt o a b =
      if Numeric.isNanBson a || Numeric.isNanBson b then
        some (Numeric.isNanBson a && !Numeric.isNanBson b)
      else
        (Numeric.fastCmp a b).elim
          ((Numeric.classify a).bind fun x => (Numeric.classify b).bind fun y => some (Numeric.cmp x y == some .lt))
          fun r => some (r == some .lt) := by
    cases a <;> cases b <;> first | rfl | cases ha
  have hpart : p ≠ .nan → q ≠ .nan → p.partialCmp q = some (p.cmp q) := by
    intro hp hq
    cases p <;> cases q <;> simp_all [Quantity.partialCmp]
  rw [hshape]
  by_cases hp : p = .nan
  · have h1 := hna.mpr hp
    by_cases hq : q = .nan
    · have h2 := hnb.mpr hq
      simp [h1, h2, hp, hq, Quantity.cmp]
    · have h2 : Numeric.isNanBson b = false := by simpa [hq] using hnb
      cases q <;> simp_all [Quantity.cmp]
  · have h1 : Numeric.isNanBson a = false := by simpa [hp] using hna
    by_cases hq : q = .nan
    · have h2 := hnb.mpr hq
      cases p <;> simp_all [Quantity.cmp]
    · have h2 : Numeric.isNanBson b = false := by simpa [hq] using hnb
      rw [h1, h2, if_neg (by decide)]
      cases hf : Numeric.fastCmp a b with
      | some r =>
        obtain ⟨p', q', hp', hq', rfl⟩ := Numeric.fastCmp_spec hf
        rw [ha, Option.some.injEq] at hp'
        rw [hb, Option.some.injEq] at hq'
        subst hp' hq'
        rw [hpart hp hq]
        cases p.cmp q <;> rfl
      | none =>
        obtain ⟨x, hx, hxwf, hxq⟩ := Numeric.exists_classify ha
        obtain ⟨y, hy, hywf, hyq⟩ := Numeric.exists_classify hb
        rw [hx, hy, Option.elim_none, Option.bind_some, Option.bind_some, Numeric.cmp_spec hxwf hywf, hxq, hyq, hpart hp hq]
        cases p.cmp q <;> rfl

/-- Two values of one rank that are no raw text carriers and not both documents or arrays. -/
theorem bsonLt_leaf {o : BinDataOrder} {a b : Bson} (ha : ordinary a = true) (hb : ordinary b = true)
    (hrank : typeRank a = typeRank b) (hra : asRawText a = none) (hrb : asRawText b = none)
    (hdoc : ∀ d e, form a = .document d → form b = .document e → False)
    (harr : ∀ l m, form a = .array l → form b = .array m → False) :
    bsonLt o a b = some (BsonOrder.cmp o a b == .lt) := by
  have hr := hrank
  rw [typeRank_eq, typeRank_eq] at hr
  have hnull : typeRank .null = 20 := rfl
  rw [BsonOrder.cmp, cmpBy_eq hrank, bsonLt_level ha hb, if_neg (not_not.mpr hrank), typeRank_eq a, hnull]
  rcases carrier_cases a with ⟨t, raw, h, -, -⟩ | ⟨s, -, hia, hfa⟩ | ⟨-, hia, hfa⟩
  · rw [hra] at h
    cases h
  · obtain ⟨d, rfl⟩ := asInvalidUtf8_document hia
    rw [hfa] at hr ⊢
    rcases carrier_cases b with ⟨t, raw, h, -, -⟩ | ⟨s', -, hib, hfb⟩ | ⟨-, hib, hfb⟩
    · rw [hrb] at h
      cases h
    · have hpair : carrierPair (.document d) b = some (s, s') := by
        rw [carrierPair_eq (fun _ _ heq => by cases heq), strBytes_of_invalid hia, strBytes_of_invalid hib]
        rfl
      rw [hfb, hpair]
      rfl
    · rw [hfb] at hr ⊢
      cases b <;> first
        | (simp [plainForm, Form.rank] at hr; done)
        | skip
      rename_i t
      have hpair : carrierPair (.document d) (.string t) = some (s, utf8 t) := by
        rw [carrierPair_eq (fun _ _ heq => by cases heq), strBytes_of_invalid hia]
        rfl
      rw [hpair]
      rfl
  · rcases carrier_cases b with ⟨t, raw, h, -, -⟩ | ⟨s', -, hib, hfb⟩ | ⟨-, hib, hfb⟩
    · rw [hrb] at h
      cases h
    · obtain ⟨d, rfl⟩ := asInvalidUtf8_document hib
      rw [hfa, hfb] at hr ⊢
      cases a <;> first
        | (simp [plainForm, Form.rank] at hr; done)
        | skip
      rename_i t
      have hpair : carrierPair (.string t) (.document d) = some (utf8 t, s') := by
        rw [carrierPair_eq (fun _ _ _ heq => by cases heq), strBytes_of_invalid hib]
        rfl
      rw [hpair]
      rfl
    · rw [hfa, hfb] at hr hdoc harr ⊢
      have hscalar : ∀ {p q}, quantity a = some p → quantity b = some q →
          scalarLt o a b = some (p.cmp q == .lt) := scalarLt_number
      have hdate : ∀ x y : Int64, decide (x.toInt < y.toInt) = (compare x.toInt y.toInt == .lt) := by
        intro x y
        rw [Bool.eq_iff_iff, decide_eq_true_eq, beq_iff_eq, compare_lt_iff_lt]
      -- most pairs have different ranks; of the rest all but the numbers read off an arm
      cases a <;> cases b <;> first
        | (simp [plainForm, Form.rank] at hr; done)
        | (simp [ordinary] at ha hb; done)
        | exact (hdoc _ _ rfl rfl).elim
        | exact (harr _ _ rfl rfl).elim
        | rfl
        | (simp only [asInvalidUtf8] at hia hib
           simp [plainForm, Form.rank, Form.cmp, scalarLt, carrierPair, strBytes, asInvalidUtf8, ltText,
             inside, hdate] <;> done)
        | exact hscalar rfl rfl

/-! ## Raw text carriers -/

theorem asRawText_shape {v : Bson} {t : RawType} {raw : Bytes} (h : asRawText v = some (t, raw)) :
    ∃ b : Binary, v = .document [(t.key, .binary b)] ∧ b.subtype = 0 ∧ b.bytes = raw := by
  unfold asRawText at h
  split at h
  · rename_i k b
    split at h
    · rename_i hsub
      obtain ⟨t', ht', heq⟩ := Option.map_eq_some_iff.mp h
      cases heq
      have hkey := List.find?_some ht'
      rw [decide_eq_true_eq] at hkey
      exact ⟨b, by rw [hkey], hsub, rfl⟩
    · cases h
  · cases h

theorem asInvalidUtf8_shape {v : Bson} {s : Bytes} (h : asInvalidUtf8 v = some s) :
    ∃ b : Binary, v = .document [(invalidUtf8Key, .binary b)] ∧ b.bytes = s := by
  obtain ⟨d, rfl⟩ := asInvalidUtf8_document h
  unfold asInvalidUtf8 carrierBytes at h
  simp only at h
  split at h
  · rename_i k b
    split at h
    · rename_i hk
      rw [hk.1]
      exact ⟨b, rfl, Option.some.inj h⟩
    · cases h
  · cases h

theorem bsonLt_binary (o : BinDataOrder) (x y : Binary) :
    bsonLt o (.binary x) (.binary y) = some (bindataCmp o x y == .lt) := by
  have hrank : typeRank (.binary x) = typeRank (.binary y) := rfl
  have hnull : ¬ typeRank (.binary x) = typeRank .null := by
    show ¬ (70 : UInt8) = 20
    decide
  rw [bsonLt_level rfl rfl, if_neg (not_not.mpr hrank), if_neg hnull]
  rfl

theorem bindataCmp_eq_iff (o : BinDataOrder) {x y : Binary} :
    bindataCmp o x y = .eq ↔ x.subtype = y.subtype ∧ x.bytes = y.bytes := by
  cases o <;> simp only [bindataCmp, Ordering.then_eq_eq, Std.compare_eq_iff_eq]
  · exact ⟨fun h => h.2, fun h => ⟨congrArg List.length h.2, h⟩⟩
  · exact and_comm
  · exact ⟨fun h => h.2, fun h => ⟨congrArg List.length h.2, h⟩⟩

theorem bsonLtFields_single (o : BinDataOrder) (k l : String) (x y : Binary) :
    bsonLtFields o [(k, .binary x)] [(l, .binary y)] =
      some (if k = l then bindataCmp o x y == .lt else compare (utf8 k) (utf8 l) == .lt) := by
  have hrank : ltRank (.binary x) = ltRank (.binary y) := rfl
  rw [bsonLtFields, if_neg (not_not.mpr hrank)]
  by_cases hk : k = l
  · rw [if_neg (not_not.mpr hk), if_pos hk, bsonLt_binary, bsonLt_binary, bindataCmp_swap o x y,
      bsonLtFields]
    cases bindataCmp o x y <;> rfl
  · rw [if_pos hk, if_neg hk]

theorem typeRank_raw {v : Bson} (h : asRawText v ≠ none) : typeRank v ≠ typeRank .null := by
  obtain ⟨⟨t, raw⟩, ht⟩ := Option.ne_none_iff_exists'.mp h
  rw [typeRank_eq, form_of_raw ht]
  show (rawForm t raw).rank ≠ 20
  cases t <;> simp [rawForm, Form.rank]

theorem raw_of_ne {a b : Bson} (hne : asRawText a ≠ asRawText b) :
    asRawText a ≠ none ∨ asRawText b ≠ none := by
  by_contra hcon
  rw [not_or, not_not, not_not] at hcon
  exact hne (hcon.1.trans hcon.2.symm)

/-- `bson_lt` of two values of one rank of which one is a raw text carrier and the other not the same. -/
theorem bsonLt_raw {o : BinDataOrder} {a b : Bson} (ha : ordinary a = true) (hb : ordinary b = true)
    (hrank : typeRank a = typeRank b) (hne : asRawText a ≠ asRawText b) :
    bsonLt o a b = rawVerdict o a b := by
  have hraw := raw_of_ne hne
  have hnull : typeRank a ≠ typeRank .null := by
    rcases hraw with h | h
    · exact typeRank_raw h
    · rw [hrank]
      exact typeRank_raw h
  have hr := hrank
  rw [typeRank_eq, typeRank_eq] at hr
  rw [bsonLt_level ha hb, if_neg (not_not.mpr hrank), if_neg hnull, carrierPair_of_raw hraw]
  show inside o a b = rawVerdict o a b
  rcases carrier_cases a with ⟨t, raw, hta, -, hfa⟩ | ⟨s, hta, hia, hfa⟩ | ⟨hta, -, hfa⟩
  · obtain ⟨x, rfl, -, -⟩ := asRawText_shape hta
    rcases carrier_cases b with ⟨u, raw', htb, -, hfb⟩ | ⟨s', htb, hib, hfb⟩ | ⟨htb, -, hfb⟩
    · obtain ⟨y, rfl, -, -⟩ := asRawText_shape htb
      exact bsonLtFields_single o _ _ x y
    · obtain ⟨y, rfl, -⟩ := asInvalidUtf8_shape hib
      exact bsonLtFields_single o _ _ x y
    · rw [hfa, hfb] at hr
      cases b <;> first
        | rfl
        | (cases t <;> simp [rawForm, plainForm, Form.rank] at hr)
  · rcases carrier_cases b with ⟨u, raw', htb, -, hfb⟩ | ⟨s', htb, -, -⟩ | ⟨htb, -, -⟩
    · obtain ⟨x, rfl, -⟩ := asInvalidUtf8_shape hia
      obtain ⟨y, rfl, -, -⟩ := asRawText_shape htb
      exact bsonLtFields_single o _ _ x y
    · exact absurd (hta.trans htb.symm) hne
    · exact absurd (hta.trans htb.symm) hne
  · rcases carrier_cases b with ⟨u, raw', htb, -, hfb⟩ | ⟨s', htb, -, -⟩ | ⟨htb, -, -⟩
    · obtain ⟨y, rfl, -, -⟩ := asRawText_shape htb
      rw [hfa, hfb] at hr
      cases a <;> first
        | rfl
        | (cases u <;> simp [rawForm, plainForm, Form.rank] at hr)
    · exact absurd (hta.trans htb.symm) hne
    · exact absurd (hta.trans htb.symm) hne

/-- Of two carriers one is below the other, unless they are the same. -/
theorem rawVerdict_apart {o : BinDataOrder} {a b : Bson} (hne : asRawText a ≠ asRawText b)
    (h : rawVerdict o a b = some false) : rawVerdict o b a = some true := by
  unfold rawVerdict at h
  split at h
  · rename_i k x l y
    have hle := Option.some.inj h
    show some _ = some true
    congr 1
    by_cases hk : k = l
    · subst hk
      rw [if_pos rfl] at hle ⊢
      have hneq : bindataCmp o x y ≠ .eq := by
        intro heq
        obtain ⟨hsub, hbytes⟩ := (bindataCmp_eq_iff o).mp heq
        have hxy : x = y := by
          cases x
          cases y
          simp_all
        exact hne (by rw [hxy])
      rw [bindataCmp_swap o x y]
      cases hc : bindataCmp o x y with
      | lt => simp [hc] at hle
      | eq => exact absurd hc hneq
      | gt => rfl
    · rw [if_neg hk] at hle
      rw [if_neg (Ne.symm hk)]
      have hneq : compare (utf8 k) (utf8 l) ≠ .eq := fun heq =>
        hk (utf8_injective (Std.compare_eq_iff_eq.mp heq))
      rw [Std.OrientedOrd.eq_swap (a := utf8 l)]
      cases hc : compare (utf8 k) (utf8 l) with
      | lt => simp [hc] at hle
      | eq => exact absurd hc hneq
      | gt => rfl
  · cases h

theorem rawVerdict_none {o : BinDataOrder} {a b : Bson} (h : rawVerdict o a b = none) :
    rawVerdict o b a = none := by
  unfold rawVerdict
  split
  · cases h
  · rfl

theorem someRaw_of_ne {a b : Bson} (hne : asRawText a ≠ asRawText b) :
    ¬((asRawText a).isNone && (asRawText b).isNone) = true := by
  rcases raw_of_ne hne with h | h
  · simp [h]
  · simp [h]

theorem textOf_isSome {a b : Bson} {p : RawType × Bytes} (ha : asRawText a = some p) (hb : ordinary b = true)
    (hrank : typeRank a = typeRank b) : ∃ t, textOf b = some t := by
  obtain ⟨t, raw⟩ := p
  rw [typeRank_eq, typeRank_eq, form_of_raw ha] at hrank
  rcases carrier_cases b with ⟨u, raw', htb, -, -⟩ | ⟨s, htb, hib, -⟩ | ⟨htb, hib, hfb⟩
  · exact ⟨_, textOf_of_raw htb⟩
  · exact ⟨s, textOf_of_invalid htb hib⟩
  · rw [hfb] at hrank
    cases b <;> first
      | exact ⟨_, rfl⟩
      | (cases t <;> simp [rawForm, plainForm, Form.rank] at hrank)

theorem rawTextCmp_isSome {a b : Bson} (ha : ordinary a = true) (hb : ordinary b = true)
    (hrank : typeRank a = typeRank b) (hne : asRawText a ≠ asRawText b) : ∃ r, rawTextCmp a b = some r := by
  have htexts : (∃ t, textOf a = some t) ∧ ∃ t, textOf b = some t := by
    rcases raw_of_ne hne with h | h
    · obtain ⟨⟨t, raw⟩, ht⟩ := Option.ne_none_iff_exists'.mp h
      exact ⟨⟨_, textOf_of_raw ht⟩, textOf_isSome ht hb hrank⟩
    · obtain ⟨⟨t, raw⟩, ht⟩ := Option.ne_none_iff_exists'.mp h
      exact ⟨textOf_isSome ht ha hrank.symm, ⟨_, textOf_of_raw ht⟩⟩
  obtain ⟨⟨x, hx⟩, y, hy⟩ := htexts
  refine ⟨compare x y, ?_⟩
  unfold rawTextCmp
  rw [if_neg (someRaw_of_ne hne), hx, hy]
  rfl

/-- `cmp` of a pair with a raw text carrier in it is that of the texts. -/
theorem cmp_raw {o : BinDataOrder} {a b : Bson} (hrank : typeRank a = typeRank b)
    (hne : asRawText a ≠ asRawText b) {r : Ordering} (h : rawTextCmp a b = some r) :
    BsonOrder.cmp o a b = r := by
  unfold BsonOrder.cmp cmpBy
  rw [if_neg (not_not.mpr hrank), carrierPair_of_raw (raw_of_ne hne), h]

/-! ## The walk -/

theorem then_of_ne {c : Ordering} (h : c ≠ .eq) (d : Ordering) : c.then d = c := by
  cases c with
  | eq => exact absurd rfl h
  | lt => rfl
  | gt => rfl

/-- What the two directions of `bson_lt` and `cmp` say of two values, given the pair they part at. -/
structure Agrees (o : BinDataOrder) (lt gt : Option Bool) (c : Ordering) (p : Option (Bson × Bson)) : Prop where
  whole : p = none → lt = some (c == .lt) ∧ gt = some (c == .gt)
  parted : ∀ a b, p = some (a, b) → lt = rawVerdict o a b ∧ gt = rawVerdict o b a
  apart : ∀ a b, p = some (a, b) → asRawText a ≠ asRawText b
  text : ∀ a b, p = some (a, b) → ∃ r, rawTextCmp a b = some r ∧ (r ≠ .eq → c = r)

/-- Both directions of one pair, and then what follows. -/
def step (lt gt rest : Option Bool) : Option Bool := do
  if ← lt then return true
  if ← gt then return false
  rest

/-- The pair the first parts at, else the one what follows parts at. -/
def firstParting (p : Option (Bson × Bson)) (c : Ordering) (p' : Option (Bson × Bson)) : Option (Bson × Bson) :=
  match p with
  | some q => some q
  | none => if c = .eq then p' else none

theorem Agrees.step {o : BinDataOrder} {lt gt lt' gt' : Option Bool} {c c' : Ordering}
    {p p' : Option (Bson × Bson)} (h : Agrees o lt gt c p) (h' : Agrees o lt' gt' c' p') :
    Agrees o (step lt gt lt') (step gt lt gt') (c.then c') (firstParting p c p') := by
  cases p with
  | none =>
    obtain ⟨hlt, hgt⟩ := h.whole rfl
    rw [hlt, hgt]
    cases c with
    | lt => exact ⟨fun _ => ⟨rfl, rfl⟩, nofun, nofun, nofun⟩
    | gt => exact ⟨fun _ => ⟨rfl, rfl⟩, nofun, nofun, nofun⟩
    | eq => exact h'
  | some q =>
    obtain ⟨a, b⟩ := q
    obtain ⟨hlt, hgt⟩ := h.parted a b rfl
    have hne := h.apart a b rfl
    refine ⟨nofun, ?_, ?_, ?_⟩
    · rintro a' b' ⟨⟩
      rw [hlt, hgt]
      have hab := rawVerdict_apart (o := o) hne
      have hba := rawVerdict_apart (o := o) hne.symm
      cases hv : rawVerdict o a b with
      | none =>
        rw [rawVerdict_none hv]
        exact ⟨rfl, rfl⟩
      | some v =>
        cases v with
        | false =>
          rw [hab hv]
          exact ⟨rfl, rfl⟩
        | true =>
          cases hw : rawVerdict o b a with
          | none =>
            rw [rawVerdict_none hw] at hv
            cases hv
          | some w => cases w <;> exact ⟨rfl, rfl⟩
    · rintro a' b' ⟨⟩
      exact hne
    · rintro a' b' ⟨⟩
      obtain ⟨r, hr, hc⟩ := h.text a b rfl
      refine ⟨r, hr, fun hreq => ?_⟩
      rw [hc hreq]
      exact then_of_ne hreq _

/-- A pair of values. -/
def PairAgrees (o : BinDataOrder) (a b : Bson) : Prop :=
  ordinary a = true → ordinary b = true →
    Agrees o (bsonLt o a b) (bsonLt o b a) (BsonOrder.cmp o a b) (parting o a b)

def FieldsAgree (o : BinDataOrder) (d e : Document) : Prop :=
  ordinaryFields d = true → ordinaryFields e = true →
    Agrees o (bsonLtFields o d e) (bsonLtFields o e d) (docCmp o d e) (partingFields o d e)

def ElementsAgree (o : BinDataOrder) (l m : List Bson) : Prop :=
  ordinaryElements l = true → ordinaryElements m = true →
    Agrees o (bsonLtElements o l m) (bsonLtElements o m l) (arrayCmp o l m) (partingElements o l m)

theorem Agrees.of_level {o : BinDataOrder} {lt gt : Option Bool} {c : Ordering} (hlt : lt = some (c == .lt))
    (hgt : gt = some (c == .gt)) : Agrees o lt gt c none :=
  ⟨fun _ => ⟨hlt, hgt⟩, nofun, nofun, nofun⟩

theorem swap_beq (c : Ordering) : (c.swap == .lt) = (c == .gt) := by
  cases c <;> rfl

theorem agrees_rank (o : BinDataOrder) (x y : UInt8) :
    Agrees o (some (decide (x < y))) (some (decide (y < x))) (compare x y) none := by
  have hswap : compare y x = (compare x y).swap := Std.OrientedOrd.eq_swap
  have hlt : ∀ x y : UInt8, decide (x < y) = (compare x y == .lt) := by
    intro x y
    rw [Bool.eq_iff_iff, decide_eq_true_eq, beq_iff_eq, ByteOrder.compare_toNat, compare_lt_iff_lt,
      UInt8.lt_iff_toNat_lt]
  refine Agrees.of_level (by rw [hlt]) ?_
  rw [hlt, hswap, swap_beq]

theorem fieldsAgree_cons {o : BinDataOrder} {k l : String} {v w : Bson} {x y : Document}
    (hv : PairAgrees o v w) (hx : FieldsAgree o x y) : FieldsAgree o ((k, v) :: x) ((l, w) :: y) := by
  intro ha hb
  rw [ordinaryFields, Bool.and_eq_true] at ha hb
  unfold docCmp
  rw [docCmpBy, bsonLtFields, bsonLtFields, partingFields, ltRank_ordinary ha.1, ltRank_ordinary hb.1]
  by_cases hrank : typeRank v = typeRank w
  · rw [if_neg (not_not.mpr hrank), if_neg (not_not.mpr hrank.symm), hrank, Std.compare_self,
      Ordering.eq_then]
    by_cases hk : k = l
    · rw [if_neg (not_not.mpr hk), if_neg (not_not.mpr hk.symm), if_neg (by simp [hk]), hk,
        Std.compare_self, Ordering.eq_then]
      exact (hv ha.1 hb.1).step (hx ha.2 hb.2)
    · have hneq : compare (utf8 k) (utf8 l) ≠ .eq := fun heq =>
        hk (utf8_injective (Std.compare_eq_iff_eq.mp heq))
      rw [if_pos hk, if_pos (Ne.symm hk), if_pos (Or.inr hk), then_of_ne hneq]
      refine Agrees.of_level rfl ?_
      rw [Std.OrientedOrd.eq_swap (a := utf8 l), swap_beq]
  · have hneq : compare (typeRank v) (typeRank w) ≠ .eq := fun heq => hrank (Std.compare_eq_iff_eq.mp heq)
    rw [if_pos hrank, if_pos (Ne.symm hrank), if_pos (Or.inl hrank), then_of_ne hneq]
    exact agrees_rank o _ _

theorem elementsAgree_cons {o : BinDataOrder} {v w : Bson} {x y : List Bson}
    (hv : PairAgrees o v w) (hx : ElementsAgree o x y) : ElementsAgree o (v :: x) (w :: y) := by
  intro ha hb
  rw [ordinaryElements, Bool.and_eq_true] at ha hb
  unfold arrayCmp
  rw [arrayCmpBy, bsonLtElements, bsonLtElements, partingElements]
  exact (hv ha.1 hb.1).step (hx ha.2 hb.2)

theorem cmp_self (o : BinDataOrder) (v : Bson) : BsonOrder.cmp o v v = .eq := by
  have h := cmp_swap o v v
  cases hc : BsonOrder.cmp o v v <;> simp [hc] at h ⊢

theorem partingFields_single (o : BinDataOrder) (k l : String) (x y : Binary) :
    partingFields o [(k, .binary x)] [(l, .binary y)] = none := by
  simp only [partingFields, parting, asRawText]
  split
  · rfl
  · simp

theorem same_of_raw {a b : Bson} (hraw : asRawText a ≠ none) (hsame : asRawText a = asRawText b) :
    ∃ k x, a = .document [(k, .binary x)] ∧ b = a := by
  obtain ⟨⟨t, raw⟩, hta⟩ := Option.ne_none_iff_exists'.mp hraw
  have htb := hsame.symm.trans hta
  obtain ⟨x, rfl, hxsub, hxbytes⟩ := asRawText_shape hta
  obtain ⟨y, rfl, hysub, hybytes⟩ := asRawText_shape htb
  have hxy : x = y := by
    cases x
    cases y
    simp_all
  exact ⟨_, x, rfl, by rw [hxy]⟩

theorem parting_same {o : BinDataOrder} {a b : Bson} (hraw : asRawText a ≠ none)
    (hsame : asRawText a = asRawText b) : parting o a b = none := by
  obtain ⟨k, x, rfl, rfl⟩ := same_of_raw hraw hsame
  unfold parting
  rw [if_neg (not_not.mpr rfl), if_neg (not_not.mpr rfl)]
  exact partingFields_single o _ _ x x

theorem pairAgrees_same {o : BinDataOrder} {a b : Bson} (hraw : asRawText a ≠ none)
    (hsame : asRawText a = asRawText b) : PairAgrees o a b := by
  intro ha _
  rw [parting_same hraw hsame]
  obtain ⟨k, x, rfl, rfl⟩ := same_of_raw hraw hsame
  have hlt : bsonLt o (.document [(k, .binary x)]) (.document [(k, .binary x)]) = some false := by
    rw [bsonLt_level ha ha, if_neg (not_not.mpr rfl), if_neg (typeRank_raw hraw), carrierPair_of_raw (.inl hraw)]
    show bsonLtFields o _ _ = _
    rw [bsonLtFields_single, if_pos rfl, (bindataCmp_eq_iff o).mpr ⟨rfl, rfl⟩]
    rfl
  rw [hlt, cmp_self]
  exact Agrees.of_level rfl rfl

theorem parting_level {o : BinDataOrder} {a b : Bson} :
    typeRank a = typeRank b → asRawText a = asRawText b → parting o a b =
      match a, b with
      | .document x, .document y => partingFields o x y
      | .array x, .array y => partingElements o x y
      | _, _ => none := by
  intro hrank hsame
  rw [parting.eq_def, if_neg (not_not.mpr hrank), if_neg (not_not.mpr hsame)]

theorem pairAgrees_document {o : BinDataOrder} {d e : Document} (hd : form (.document d) = .document d)
    (he : form (.document e) = .document e) (h : FieldsAgree o d e) :
    PairAgrees o (.document d) (.document e) := by
  intro ha hb
  have hplain : ∀ {d : Document}, form (.document d) = .document d →
      asRawText (.document d) = none ∧ asInvalidUtf8 (.document d) = none := by
    intro d hd
    have hp := (isPlain_iff d).mpr hd
    rw [isPlain, Bool.and_eq_true, Option.isNone_iff_eq_none, Option.isNone_iff_eq_none] at hp
    exact hp
  obtain ⟨hra, hia⟩ := hplain hd
  obtain ⟨hrb, hib⟩ := hplain he
  have hrank : ∀ {d : Document}, form (.document d) = .document d → typeRank (.document d) = 50 := by
    intro d hd
    rw [typeRank_eq, hd]
    rfl
  have hsame := (hrank hd).trans (hrank he).symm
  have hnull : ∀ {d : Document}, form (.document d) = .document d → typeRank (.document d) ≠ typeRank .null := by
    intro d hd
    rw [hrank hd]
    show (50 : UInt8) ≠ 20
    decide
  have hpair : ∀ {d e : Document}, asInvalidUtf8 (.document d) = none →
      carrierPair (.document d) (.document e) = none := by
    intro d e hi
    have hbytes : strBytes (.document d) = none := hi
    rw [carrierPair_eq (fun _ _ heq => by cases heq), hbytes]
    rfl
  rw [bsonLt_level ha hb, bsonLt_level hb ha, if_neg (not_not.mpr hsame), if_neg (not_not.mpr hsame.symm),
    if_neg (hnull hd), if_neg (hnull he), hpair hia, hpair hib, parting_level hsame (hra.trans hrb.symm),
    BsonOrder.cmp, cmpBy_eq hsame, hd, he]
  exact h ha hb

theorem pairAgrees_array {o : BinDataOrder} {l m : List Bson} (h : ElementsAgree o l m) :
    PairAgrees o (.array l) (.array m) := by
  intro ha hb
  have hsame : ∀ l m : List Bson, typeRank (.array l) = typeRank (.array m) := fun l m => rfl
  have hnull : ∀ l : List Bson, typeRank (.array l) ≠ typeRank .null := by
    intro l
    show (60 : UInt8) ≠ 20
    decide
  rw [bsonLt_level ha hb, bsonLt_level hb ha, if_neg (not_not.mpr (hsame l m)), if_neg (not_not.mpr (hsame m l)),
    if_neg (hnull l), if_neg (hnull m), parting_level (hsame l m) rfl, BsonOrder.cmp, cmpBy_eq (hsame l m)]
  exact h ha hb

/-- Values without others inside part nowhere. -/
theorem parting_leaf {o : BinDataOrder} {a b : Bson} (hrank : typeRank a = typeRank b)
    (hra : asRawText a = none) (hrb : asRawText b = none)
    (hdoc : ∀ d e, form a = .document d → form b = .document e → False)
    (harr : ∀ l m, form a = .array l → form b = .array m → False) : parting o a b = none := by
  have hr := hrank
  rw [typeRank_eq, typeRank_eq] at hr
  rw [parting_level hrank (hra.trans hrb.symm)]
  split
  · rename_i x y
    rcases carrier_cases (.document x) with ⟨t, raw, h, -, -⟩ | ⟨s, -, hix, hfx⟩ | ⟨-, -, hfx⟩
    · rw [hra] at h
      cases h
    · rcases carrier_cases (.document y) with ⟨t, raw, h, -, -⟩ | ⟨s', -, hiy, -⟩ | ⟨-, -, hfy⟩
      · rw [hrb] at h
        cases h
      · obtain ⟨bx, hx, -⟩ := asInvalidUtf8_shape hix
        obtain ⟨byt, hy, -⟩ := asInvalidUtf8_shape hiy
        rw [Bson.document.injEq] at hx hy
        rw [hx, hy]
        exact partingFields_single o _ _ bx byt
      · rw [hfx, hfy] at hr
        simp [plainForm, Form.rank] at hr
    · rcases carrier_cases (.document y) with ⟨t, raw, h, -, -⟩ | ⟨s', -, -, hfy⟩ | ⟨-, -, hfy⟩
      · rw [hrb] at h
        cases h
      · rw [hfx, hfy] at hr
        simp [plainForm, Form.rank] at hr
      · exact (hdoc x y hfx hfy).elim
  · exact (harr _ _ rfl rfl).elim
  · rfl

theorem pairAgrees_of {o : BinDataOrder} {a b : Bson}
    (hdoc : ∀ d e, form a = .document d → form b = .document e → FieldsAgree o d e)
    (harr : ∀ l m, form a = .array l → form b = .array m → ElementsAgree o l m) : PairAgrees o a b := by
  intro ha hb
  by_cases hrank : typeRank a = typeRank b
  · by_cases hne : asRawText a = asRawText b
    · by_cases hraw : asRawText a = none
      · by_cases hd : ∃ d e, form a = .document d ∧ form b = .document e
        · obtain ⟨d, e, hfa, hfb⟩ := hd
          obtain rfl := form_document hfa
          obtain rfl := form_document hfb
          exact pairAgrees_document hfa hfb (hdoc d e hfa hfb) ha hb
        · by_cases hl : ∃ l m, form a = .array l ∧ form b = .array m
          · obtain ⟨l, m, hfa, hfb⟩ := hl
            obtain rfl := form_array hfa
            obtain rfl := form_array hfb
            exact pairAgrees_array (harr l m hfa hfb) ha hb
          · have hrawb := hne.symm.trans hraw
            rw [parting_leaf hrank hraw hrawb (fun d e hfa hfb => hd ⟨d, e, hfa, hfb⟩)
              (fun l m hfa hfb => hl ⟨l, m, hfa, hfb⟩), bsonLt_leaf ha hb hrank hraw hrawb
              (fun d e hfa hfb => hd ⟨d, e, hfa, hfb⟩) (fun l m hfa hfb => hl ⟨l, m, hfa, hfb⟩),
              bsonLt_leaf hb ha hrank.symm hrawb hraw
                (fun d e hfb hfa => hd ⟨e, d, hfa, hfb⟩) (fun l m hfb hfa => hl ⟨m, l, hfa, hfb⟩)]
            refine Agrees.of_level rfl ?_
            rw [cmp_swap o a b, swap_beq]
      · exact pairAgrees_same hraw hne ha hb
    · unfold parting
      rw [if_neg (not_not.mpr hrank), if_pos hne, bsonLt_raw ha hb hrank hne,
        bsonLt_raw hb ha hrank.symm (Ne.symm hne)]
      refine ⟨nofun, ?_, ?_, ?_⟩
      · rintro a' b' ⟨⟩
        exact ⟨rfl, rfl⟩
      · rintro a' b' ⟨⟩
        exact hne
      · rintro a' b' ⟨⟩
        obtain ⟨r, hr⟩ := rawTextCmp_isSome ha hb hrank hne
        exact ⟨r, hr, fun _ => cmp_raw hrank hne hr⟩
  · unfold parting
    rw [if_pos hrank, bsonLt_level ha hb, bsonLt_level hb ha, if_pos hrank, if_pos (Ne.symm hrank),
      BsonOrder.cmp, cmpBy_of_rank_ne hrank]
    exact agrees_rank o _ _

theorem agrees_longer {o : BinDataOrder} (n : ℕ) : Agrees o (some (decide (0 < n + 1))) (some false) .lt none :=
  Agrees.of_level (by simp) rfl

theorem Agrees.swapped {o : BinDataOrder} {lt gt : Option Bool} {c : Ordering} (h : Agrees o lt gt c none) :
    Agrees o gt lt c.swap none := by
  obtain ⟨hlt, hgt⟩ := h.whole rfl
  refine Agrees.of_level ?_ ?_
  · rw [hgt, swap_beq]
  · rw [hlt]
    cases c <;> rfl

theorem agrees (o : BinDataOrder) : PairStep (PairAgrees o) (FieldsAgree o) (ElementsAgree o) where
  value a b hdoc harr _ := pairAgrees_of hdoc harr
  doc_nil_nil _ _ := by
    rw [bsonLtFields]
    exact Agrees.of_level rfl rfl
  doc_nil_cons f e _ _ := by
    rw [bsonLtFields, bsonLtFields]
    exact agrees_longer e.length
  doc_cons_nil f d _ _ := by
    rw [bsonLtFields, bsonLtFields]
    exact (agrees_longer d.length).swapped
  doc_cons_cons k v d k' v' e hv hd := fieldsAgree_cons hv hd
  arr_nil_nil _ _ := by
    rw [bsonLtElements]
    exact Agrees.of_level rfl rfl
  arr_nil_cons v m _ _ := by
    rw [bsonLtElements, bsonLtElements]
    exact agrees_longer m.length
  arr_cons_nil v l _ _ := by
    rw [bsonLtElements, bsonLtElements]
    exact (agrees_longer l.length).swapped
  arr_cons_cons v l v' m hv hl := elementsAgree_cons hv hl

/-! ## Where they agree -/

/-- The pair's texts differ, and `bson_lt` has the first below exactly when its text is. -/
def Told (o : BinDataOrder) (a b : Bson) : Prop :=
  ∃ r, rawTextCmp a b = some r ∧ r ≠ .eq ∧ (rawVerdict o a b = some true ↔ r = .lt)

/-- A carrier as a read value has one: of text that is not UTF-8, with the length it states. A symbol's
    carrier is a symbol. -/
def isHeld (v : Bson) : Bool :=
  match asRawText v with
  | some (t, raw) =>
    t ≠ .symbol && !Wire.isText (rawTextBytes t raw) &&
      (t ≠ .javaScript || raw = Wire.textBytes (rawTextBytes t raw))
  | none => true

theorem textOf_utf8 {v : Bson} {t : Bytes} (hr : asRawText v = none) (hi : asInvalidUtf8 v = none)
    (h : textOf v = some t) : ∃ s : String, t = utf8 s := by
  unfold textOf at h
  rw [hr] at h
  cases v <;> first
    | exact ⟨_, (Option.some.inj h).symm⟩
    | cases h
    | (simp only [strBytes, hi] at h
       cases h)

/-- A held carrier and a value of its rank that is no carrier have different texts. -/
theorem held_text_ne {a b : Bson} {p : RawType × Bytes} (ha : asRawText a = some p) (hb : asRawText b = none)
    (hheld : isHeld a = true) (hrank : typeRank a = typeRank b) {x y : Bytes} (hx : textOf a = some x)
    (hy : textOf b = some y) : x ≠ y := by
  obtain ⟨t, raw⟩ := p
  unfold isHeld at hheld
  rw [ha] at hheld
  simp only [Bool.and_eq_true, decide_eq_true_eq, Bool.not_eq_true'] at hheld
  obtain ⟨⟨hsymbol, htext⟩, -⟩ := hheld
  have hrx : rawTextBytes t raw = x := by
    rw [textOf_of_raw ha] at hx
    exact Option.some.inj hx
  have hr := hrank
  rw [typeRank_eq, typeRank_eq, form_of_raw ha] at hr
  rcases carrier_cases b with ⟨u, raw', htb, -, -⟩ | ⟨s, -, -, hfb⟩ | ⟨-, hib, -⟩
  · rw [hb] at htb
    cases htb
  · rw [hfb] at hr
    cases t <;> first
      | exact absurd rfl hsymbol
      | simp [rawForm, Form.rank] at hr
  · obtain ⟨s, rfl⟩ := textOf_utf8 hb hib hy
    rintro rfl
    rw [hrx, Wire.isText, show Library.fromUtf8? (utf8 s) = some s from Library.fromUtf8?_bytesOf s] at htext
    cases htext

/-- Held values of one rank with different carriers have different texts. -/
theorem held_apart {a b : Bson} (ha : isHeld a = true) (hb : isHeld b = true)
    (hrank : typeRank a = typeRank b) (hne : asRawText a ≠ asRawText b) {r : Ordering}
    (h : rawTextCmp a b = some r) : r ≠ .eq := by
  unfold rawTextCmp at h
  rw [if_neg (someRaw_of_ne hne)] at h
  obtain ⟨x, hx, h⟩ := Option.bind_eq_some_iff.mp h
  obtain ⟨y, hy, h⟩ := Option.bind_eq_some_iff.mp h
  have hr : compare x y = r := Option.some.inj h
  rw [← hr, Ne, Std.compare_eq_iff_eq]
  cases hta : asRawText a with
  | none =>
    obtain ⟨p, hp⟩ := Option.ne_none_iff_exists'.mp ((raw_of_ne hne).resolve_left (not_not.mpr hta))
    exact (held_text_ne hp hta hb hrank.symm hy hx).symm
  | some p =>
    cases htb : asRawText b with
    | none => exact held_text_ne hta htb ha hrank hx hy
    | some q =>
      obtain ⟨t, raw⟩ := p
      obtain ⟨u, raw'⟩ := q
      have htype : t = u := by
        rw [typeRank_eq, typeRank_eq, form_of_raw hta, form_of_raw htb] at hrank
        cases t <;> cases u <;> first
          | rfl
          | simp [rawForm, Form.rank] at hrank
      subst htype
      rw [textOf_of_raw hta, Option.some.injEq] at hx
      rw [textOf_of_raw htb, Option.some.injEq] at hy
      rintro rfl
      apply hne
      rw [hta, htb]
      congr 2
      unfold isHeld at ha hb
      rw [hta] at ha
      rw [htb] at hb
      simp only [Bool.and_eq_true, decide_eq_true_eq, Bool.or_eq_true] at ha hb
      cases t with
      | javaScript =>
        rw [ha.2.resolve_left (by simp), hb.2.resolve_left (by simp), hx, hy]
      | symbol => exact absurd rfl ha.1.1
      | _ => exact hx.trans hy.symm

/-- Where held values part, both sides are held, of one rank, and not the same carrier. -/
structure PartsHeld (a b : Bson) : Prop where
  left : isHeld a = true
  right : isHeld b = true
  rank : typeRank a = typeRank b
  apart : asRawText a ≠ asRawText b

theorem partsHeld_first {c : Ordering} {p p' : Option (Bson × Bson)}
    (h : ∀ x y, p = some (x, y) → PartsHeld x y) (h' : ∀ x y, p' = some (x, y) → PartsHeld x y) :
    ∀ x y, firstParting p c p' = some (x, y) → PartsHeld x y := by
  intro x y hxy
  cases p with
  | some q => exact h x y hxy
  | none =>
    unfold firstParting at hxy
    simp only at hxy
    split at hxy
    · exact h' x y hxy
    · cases hxy

theorem partsHeld (o : BinDataOrder) : PairStep
    (fun a b => allValues isHeld a = true → allValues isHeld b = true →
      ∀ x y, parting o a b = some (x, y) → PartsHeld x y)
    (fun d e => allFields isHeld d = true → allFields isHeld e = true →
      ∀ x y, partingFields o d e = some (x, y) → PartsHeld x y)
    (fun l m => allElements isHeld l = true → allElements isHeld m = true →
      ∀ x y, partingElements o l m = some (x, y) → PartsHeld x y) where
  value a b hdoc harr _ := by
    intro ha hb x y h
    have hheld : ∀ {v : Bson}, allValues isHeld v = true → isHeld v = true := by
      intro v hv
      unfold allValues at hv
      exact (Bool.and_eq_true _ _ ▸ hv).1
    have hinside : ∀ {v : Bson}, allValues isHeld v = true →
        (∀ d, v = .document d → allFields isHeld d = true) ∧ ∀ l, v = .array l → allElements isHeld l = true := by
      intro v hv
      unfold allValues at hv
      constructor
      · rintro d rfl
        exact (Bool.and_eq_true _ _ ▸ hv).2
      · rintro l rfl
        exact (Bool.and_eq_true _ _ ▸ hv).2
    by_cases hrank : typeRank a = typeRank b
    · by_cases hne : asRawText a = asRawText b
      · by_cases hraw : asRawText a = none
        · have hrawb := hne.symm.trans hraw
          by_cases hd : ∃ d e, form a = .document d ∧ form b = .document e
          · obtain ⟨d, e, hfa, hfb⟩ := hd
            obtain rfl := form_document hfa
            obtain rfl := form_document hfb
            rw [parting_level hrank hne] at h
            exact hdoc d e hfa hfb ((hinside ha).1 d rfl) ((hinside hb).1 e rfl) x y h
          · by_cases hl : ∃ l m, form a = .array l ∧ form b = .array m
            · obtain ⟨l, m, hfa, hfb⟩ := hl
              obtain rfl := form_array hfa
              obtain rfl := form_array hfb
              rw [parting_level hrank hne] at h
              exact harr l m hfa hfb ((hinside ha).2 l rfl) ((hinside hb).2 m rfl) x y h
            · rw [parting_leaf hrank hraw hrawb (fun d e hfa hfb => hd ⟨d, e, hfa, hfb⟩)
                (fun l m hfa hfb => hl ⟨l, m, hfa, hfb⟩)] at h
              cases h
        · rw [parting_same hraw hne] at h
          cases h
      · unfold parting at h
        rw [if_neg (not_not.mpr hrank), if_pos hne] at h
        cases h
        exact ⟨hheld ha, hheld hb, hrank, hne⟩
    · unfold parting at h
      rw [if_pos hrank] at h
      cases h
  doc_nil_nil _ _ := nofun
  doc_nil_cons _ _ _ _ := nofun
  doc_cons_nil _ _ _ _ := nofun
  doc_cons_cons k v d k' v' e hv hd := by
    intro ha hb x y h
    rw [allFields, Bool.and_eq_true] at ha hb
    rw [partingFields] at h
    split at h
    · cases h
    · exact partsHeld_first (hv ha.1 hb.1) (hd ha.2 hb.2) x y h
  arr_nil_nil _ _ := nofun
  arr_nil_cons _ _ _ _ := nofun
  arr_cons_nil _ _ _ _ := nofun
  arr_cons_cons v l v' m hv hl := by
    intro ha hb x y h
    rw [allElements, Bool.and_eq_true] at ha hb
    rw [partingElements] at h
    exact partsHeld_first (hv ha.1 hb.1) (hl ha.2 hb.2) x y h

/-- `bson_lt` is the less of `cmp` when the pair the two values part at, if any, is told apart as its texts
    are; and for values whose carriers are held ones, only then. -/
theorem bsonLt_iff_cmp (o : BinDataOrder) {a b : Bson} (ha : ordinary a = true) (hb : ordinary b = true) :
    ((∀ x y, parting o a b = some (x, y) → Told o x y) →
        (bsonLt o a b = some true ↔ BsonOrder.cmp o a b = .lt)) ∧
      (allValues isHeld a = true → allValues isHeld b = true →
        (bsonLt o a b = some true ↔ BsonOrder.cmp o a b = .lt) →
        ∀ x y, parting o a b = some (x, y) → Told o x y) := by
  have hagrees := (agrees o).values a b ha hb
  constructor
  · intro htold
    cases hp : parting o a b with
    | none =>
      rw [(hagrees.whole hp).1, Option.some.injEq, beq_iff_eq]
    | some q =>
      obtain ⟨x, y⟩ := q
      obtain ⟨r, hr, hreq, hiff⟩ := htold x y hp
      obtain ⟨r', hr', hc⟩ := hagrees.text x y hp
      obtain rfl := Option.some.inj (hr.symm.trans hr')
      rw [(hagrees.parted x y hp).1, hc hreq]
      exact hiff
  · intro hha hhb hclaim x y hp
    have hheld := (partsHeld o).values a b hha hhb x y hp
    obtain ⟨r, hr, hc⟩ := hagrees.text x y hp
    have hreq := held_apart hheld.left hheld.right hheld.rank hheld.apart hr
    refine ⟨r, hr, hreq, ?_⟩
    rw [(hagrees.parted x y hp).1, hc hreq] at hclaim
    exact hclaim

/-- A regex whose pattern is these bytes, which are not UTF-8, and that has no options. -/
def rawRegex (pattern : Bytes) (h : pattern.length < 2 ^ 31 - 2) : Bson :=
  rawText .regex ⟨0, pattern ++ [0, 0], by rw [List.length_append]; simp only [List.length_cons, List.length_nil]; omega⟩

theorem asRawText_rawRegex (pattern : Bytes) (h : pattern.length < 2 ^ 31 - 2) :
    asRawText (rawRegex pattern h) = some (.regex, pattern ++ [0, 0]) := by
  have hkey : RawType.ofKey RawType.regex.key = some .regex := by decide
  simp [rawRegex, rawText, asRawText, hkey]

theorem rawTextCmp_rawRegex {p q : Bytes} (hp : p.length < 2 ^ 31 - 2) (hq : q.length < 2 ^ 31 - 2) :
    rawTextCmp (rawRegex p hp) (rawRegex q hq) = some (compare (p ++ [0, 0]) (q ++ [0, 0])) := by
  have hp' := asRawText_rawRegex p hp
  have hq' := asRawText_rawRegex q hq
  unfold rawTextCmp
  rw [if_neg (by simp [hp']), textOf_of_raw hp', textOf_of_raw hq']
  rfl

theorem typeRank_rawRegex (p : Bytes) (hp : p.length < 2 ^ 31 - 2) : typeRank (rawRegex p hp) = 120 := by
  unfold typeRank
  rw [asRawText_rawRegex]

/-- Two regexes of one length are told apart as their patterns are. -/
theorem bsonLt_iff_cmp_rawRegex :
    bsonLt .mongod (rawRegex [0xFE] (by decide)) (rawRegex [0xFF] (by decide)) = some true ↔
      BsonOrder.cmp .mongod (rawRegex [0xFE] (by decide)) (rawRegex [0xFF] (by decide)) = .lt := by
  refine (bsonLt_iff_cmp .mongod rfl rfl).1 ?_
  intro x y h
  unfold parting at h
  rw [asRawText_rawRegex, asRawText_rawRegex, typeRank_rawRegex, typeRank_rawRegex,
    if_neg (not_not.mpr rfl), if_pos (by decide)] at h
  cases h
  refine ⟨.lt, ?_, by decide, ?_⟩
  · rw [rawTextCmp_rawRegex]
    rfl
  · decide

/-- A shorter regex that is not UTF-8 is below a longer one to `bson_lt`, and above it to `cmp`. -/
theorem bsonLt_rawRegex_shorter :
    ordinary (rawRegex [0xFF] (by decide)) = true ∧ ordinary (rawRegex [0xFE, 0x41] (by decide)) = true ∧
      bsonLt .mongod (rawRegex [0xFF] (by decide)) (rawRegex [0xFE, 0x41] (by decide)) = some true ∧
      BsonOrder.cmp .mongod (rawRegex [0xFF] (by decide)) (rawRegex [0xFE, 0x41] (by decide)) = .gt := by
  have hrank : typeRank (rawRegex [0xFF] (by decide)) = typeRank (rawRegex [0xFE, 0x41] (by decide)) := by
    rw [typeRank_rawRegex, typeRank_rawRegex]
  have hne : asRawText (rawRegex [0xFF] (by decide)) ≠ asRawText (rawRegex [0xFE, 0x41] (by decide)) := by
    rw [asRawText_rawRegex, asRawText_rawRegex]
    decide
  refine ⟨rfl, rfl, ?_, ?_⟩
  · rw [bsonLt_raw rfl rfl hrank hne]
    decide
  · refine cmp_raw hrank hne ?_
    rw [rawTextCmp_rawRegex]
    rfl

end Secantus.Query
