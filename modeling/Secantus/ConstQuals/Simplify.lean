/-
  The constants of a WHERE, simplified before its scan is planned (`const_quals.rs`).

  `simplify` folds constants keeping NULL apart from FALSE, also below a NOT; `canonicalize` then reads
  a NULL within the qual's AND and OR structure as FALSE, which a WHERE may.

  * `cond_simplify`: simplifying keeps what a condition is;
  * `cond_canonicalize`: canonicalising keeps it but for FALSE in place of NULL;
  * `simplifyWhere_true_iff`: the outcome is TRUE for a row exactly when the WHERE is.
-/
import Secantus.ConstQuals.StrictFold
import Mathlib.Algebra.Order.BigOperators.Group.List
import Mathlib.Algebra.Order.Ring.Nat

namespace Secantus.ConstQuals

open ThreeValued

/-! ## Constants -/

/-- What a qual folds to when it is a constant. -/
inductive ConstQual where
  | true
  | false
  | null
  deriving DecidableEq, Repr

section Constants

variable {τ : Type}

def boolConst : Node τ → Option ConstQual
  | .null _ => some .null
  | .boolean b _ => some (if b then .true else .false)
  -- `NULL::bool`; a NULL of another type is no boolean
  | .typeCast ty arg _ =>
    if ty.names.getLast? == some "bool" && ty.arrayBounds.isEmpty && isNullConstant arg then some .null
    else none
  | _ => none

def constNode : ConstQual → Node τ
  | .null => nullBool
  | .true => .boolean true (-1)
  | .false => .boolean false (-1)

def cmp (op : String) (a b : Node τ) : Node τ := .opExpr op a b (-1)

/-- One order of the bounds. -/
def between (not : Bool) (x lo hi : Node τ) : Node τ :=
  if not then .boolExpr .or [cmp "<" x lo, cmp ">" x hi] (-1)
  else .boolExpr .and [cmp ">=" x lo, cmp "<=" x hi] (-1)

/-- `expand_between`: the comparisons a BETWEEN means. -/
def expandBetween (not symmetric : Bool) (x lo hi : Node τ) : Node τ :=
  if !symmetric then between not x lo hi
  else .boolExpr (if not then .and else .or) [between not x lo hi, between not x hi lo] (-1)

variable (user : String → Bool)

/-- Does a constant appear in the qual's boolean structure, or does a NULL make one? -/
def hasConstant (n : Node τ) : Bool :=
  (boolConst n).isSome ||
    match n with
    | .boolExpr _ args _ => (args.map hasConstant).any id
    | .nullTest _ arg _ => nullThrough user arg
    | .opExpr op l r loc => nullThrough user (.opExpr op l r loc)
    | .between not symmetric x lo hi _ => foldChanges user (expandBetween not symmetric x lo hi)
    | .null _ | .boolean _ _ | .literal _ _ | .typeCast _ _ _ | .other _ _ => false

end Constants

/-! ## Simplification -/

section Simplify

variable {τ : Type}

/-- What the recursion of `simplify` goes down: a BETWEEN is taken apart into at most seven nodes. -/
def weight : Node τ → ℕ
  | .between .. => 8
  | .boolExpr _ args _ => 1 + (args.map weight).sum
  | .null _ | .boolean _ _ | .literal _ _ | .typeCast _ _ _ | .opExpr _ _ _ _ | .nullTest _ _ _
  | .other _ _ => 1

theorem weight_lt {a : Node τ} {args : List (Node τ)} (h : a ∈ args) (op : BoolOp) (loc : Int) :
    weight a < weight (.boolExpr op args loc) := by
  rw [weight]
  have hle : weight a ≤ (args.map weight).sum := List.le_sum_of_mem (List.mem_map_of_mem h)
  omega

theorem weight_pos (n : Node τ) : 0 < weight n := by
  cases n <;> rw [weight] <;> omega

/-- The constant that decides a connective, and the one it drops. -/
def decides (and : Bool) : ConstQual := if and then .false else .true

def dropped (and : Bool) : ConstQual := if and then .true else .false

def connectiveOp (and : Bool) : BoolOp := if and then .and else .or

/-- The arguments of an AND or OR that are kept, and whether one was NULL: `none` when one decides
    it. A nested AND in an AND (OR in an OR) is flattened. -/
def gather (and : Bool) (kept : List (Node τ)) (haveNull : Bool) (pending : List (Node τ)) :
    Option (List (Node τ) × Bool) :=
  match pending with
  | [] => some (kept, haveNull)
  | arg :: pending =>
    match arg with
    | .boolExpr op inner loc =>
      if op = connectiveOp and then gather and kept haveNull (inner ++ pending)
      else gather and (kept ++ [.boolExpr op inner loc]) haveNull pending
    | arg =>
      match boolConst arg with
      | some c =>
        if c = decides and then none
        else if c = dropped and then gather and kept haveNull pending
        else gather and kept true pending
      | none => gather and (kept ++ [arg]) haveNull pending
termination_by (pending.map weight).sum
decreasing_by
  all_goals simp only [List.map_cons, List.sum_cons, List.map_append, List.sum_append, weight]
  · omega
  · omega
  all_goals
    have hpos := weight_pos arg
    omega

def boolExpr (op : BoolOp) (args : List (Node τ)) : Node τ := .boolExpr op args (-1)

/-- What the arguments kept make: none, one, or a connective of them. -/
def connective (and : Bool) : Option (List (Node τ) × Bool) → Node τ
  | none => constNode (decides and)
  | some ([], haveNull) => constNode (if haveNull then .null else dropped and)
  | some (kept, haveNull) =>
    match if haveNull then kept ++ [constNode .null] else kept with
    | [arg] => arg
    | kept => boolExpr (connectiveOp and) kept

/-- A NOT of its simplified argument. -/
def negated (n : Node τ) : List (Node τ) → Node τ
  | [arg] =>
    match boolConst arg with
    | some .true => constNode .false
    | some .false => constNode .true
    | some .null => constNode .null
    | none => boolExpr .not [arg]
  | _ => n

variable (user : String → Bool)

theorem weight_foldExpr_cmp (op : String) (a b : Node τ) : weight (foldExpr user (cmp op a b)) = 1 := by
  rw [cmp, foldExpr]
  split_ifs
  · rw [nullBool, weight]
  · rw [weight]

theorem foldExpr_boolExpr (op : BoolOp) (args : List (Node τ)) (loc : Int) :
    foldExpr user (.boolExpr op args loc) = .boolExpr op (args.map (foldExpr user)) loc := by
  rw [foldExpr]
  exact if_neg Bool.false_ne_true

theorem weight_foldExpr_between (not : Bool) (x lo hi : Node τ) :
    weight (foldExpr user (between not x lo hi)) = 3 := by
  unfold between
  split_ifs <;>
    simp [foldExpr_boolExpr, weight, weight_foldExpr_cmp]

theorem weight_foldExpr_expand (not symmetric : Bool) (x lo hi : Node τ) :
    weight (foldExpr user (expandBetween not symmetric x lo hi)) < 8 := by
  unfold expandBetween
  split_ifs
  · rw [weight_foldExpr_between]
    decide
  all_goals simp [foldExpr_boolExpr, weight, weight_foldExpr_between]

/-- `eval_const_expressions` over the boolean structure. -/
def simplify (n : Node τ) : Node τ :=
  match n with
  -- a strict comparison over a NULL is NULL, however deep
  | .opExpr op l r loc =>
    if nullThrough user (.opExpr op l r loc) then foldExpr user (.opExpr op l r loc)
    else .opExpr op l r loc
  | .nullTest isNull arg loc =>
    if nullThrough user arg then constNode (if isNull then .true else .false) else .nullTest isNull arg loc
  -- a BETWEEN a NULL bound folds is taken apart
  | .between not symmetric x lo hi loc =>
    if foldChanges user (expandBetween not symmetric x lo hi) then
      simplify (foldExpr user (expandBetween not symmetric x lo hi))
    else .between not symmetric x lo hi loc
  | .boolExpr op args loc =>
    let simplified := args.map simplify
    match op with
    | .not => negated (.boolExpr op args loc) simplified
    | .undefined => .boolExpr op args loc
    | .and => connective true (gather true [] false simplified)
    | .or => connective false (gather false [] false simplified)
  | n => n
termination_by weight n
decreasing_by
  · rw [weight]
    exact weight_foldExpr_expand user not symmetric x lo hi
  · exact weight_lt ‹_› op loc

end Simplify

/-! ## Simplifying keeps what a condition is -/

/-- A constant as a truth value. -/
def constTruth : ConstQual → Option Bool
  | .true => some true
  | .false => some false
  | .null => none

section Sound

variable {user : String → Bool} {τ α ε : Type} {ρ : Row user τ α ε}

theorem cond_of_boolConst {n : Node τ} {c : ConstQual} (h : boolConst n = some c) {t : Option Bool}
    (ht : cond ρ n = .ok t) : t = constTruth c := by
  cases n with
  | null loc =>
    cases h
    simp only [cond, condOf, eval, truth, Except.ok.injEq] at ht
    exact ht.symm
  | boolean b loc =>
    cases h
    simp only [cond, condOf, eval, truth, Except.ok.injEq] at ht
    cases b <;> exact ht.symm
  | typeCast ty arg loc =>
    simp only [boolConst] at h
    split_ifs at h with hconst
    cases h
    have hnull : isNullConstant (.typeCast ty arg loc) = true := ((Bool.and_eq_true _ _).mp hconst).2
    change truth ρ (eval ρ (.typeCast ty arg loc)) = .ok t at ht
    cases hv : eval ρ (.typeCast ty arg loc) with
    | error e =>
      rw [hv] at ht
      cases ht
    | ok v =>
      rw [hv, eval_of_isNullConstant hnull hv] at ht
      cases ht
      rfl
  | _ => cases h

theorem cond_nullBool : cond ρ (nullBool (τ := τ)) = .ok none := by
  change truth ρ (eval ρ nullBool) = .ok none
  rw [eval_nullBool]
  rfl

theorem cond_constNode (c : ConstQual) : cond ρ (constNode c : Node τ) = .ok (constTruth c) := by
  cases c with
  | null => exact cond_nullBool
  | true | false =>
    simp only [constNode, cond, condOf, eval]
    rfl

theorem truth_map_ofTruth (x : Except ε (Option Bool)) : truth ρ (x.map ofTruth) = x := by
  cases x with
  | error e => rfl
  | ok t => cases t <;> rfl

theorem cond_of_not_literal {n : Node τ} (h : ∀ s loc, n ≠ .literal s loc) :
    cond ρ n = truth ρ (eval ρ n) :=
  condOf_of_not_literal h _

theorem cond_connective (and : Bool) (args : List (Node τ)) (loc : Int) :
    cond ρ (.boolExpr (connectiveOp and) args loc) = chain (!and) (some !!and) (args.map (cond ρ)) := by
  rw [cond_of_not_literal (by simp)]
  cases and
  · simp only [connectiveOp, Bool.false_eq_true, if_false, eval, connect, truth_map_ofTruth]
    rfl
  · simp only [connectiveOp, if_true, eval, connect, truth_map_ofTruth]
    rfl

theorem cond_not (args : List (Node τ)) (loc : Int) :
    cond ρ (.boolExpr .not args loc) =
      match args.map (cond ρ) with
      | [] => .ok none
      | c :: _ => c.map fun t => t.map (! ·) := by
  rw [cond_of_not_literal (by simp)]
  simp only [eval]
  cases args with
  | nil => rfl
  | cons a args =>
    simp only [List.map_cons, negate, cond]
    cases condOf ρ a (eval ρ a) with
    | error e => rfl
    | ok t => cases t <;> rfl

/-- Where a connective's loop starts: at NULL once a NULL argument was taken out. -/
def startOf (and haveNull : Bool) : Option Bool := if haveNull then none else some !!and

theorem constTruth_decides (and : Bool) : constTruth (decides and) = some !and := by
  cases and <;> rfl

theorem constTruth_dropped (and : Bool) : constTruth (dropped and) = some !!and := by
  cases and <;> rfl

theorem eq_null_of_ne {and : Bool} {c : ConstQual} (h : c ≠ decides and) (h' : c ≠ dropped and) : c = .null := by
  cases and <;> cases c <;> simp_all [decides, dropped]

theorem gather_cons {and : Bool} {kept : List (Node τ)} {haveNull : Bool} {pending : List (Node τ)}
    {arg : Node τ} (hne : ∀ op inner loc, arg = .boolExpr op inner loc → False) :
    gather and kept haveNull (arg :: pending) =
      match boolConst arg with
      | some c =>
        if c = decides and then none
        else if c = dropped and then gather and kept haveNull pending
        else gather and kept true pending
      | none => gather and (kept ++ [arg]) haveNull pending := by
  rw [gather]
  exact hne

/-- A constant argument may be read as its constant. -/
theorem chain_of_const {stop : Bool} {acc : Option Bool} {kept pending : List (Node τ)} {arg : Node τ}
    {c : ConstQual} {v : Option Bool} (hc : boolConst arg = some c)
    (h : chain stop acc ((kept ++ arg :: pending).map (cond ρ)) = .ok v) :
    chain stop acc (kept.map (cond ρ) ++ .ok (constTruth c) :: pending.map (cond ρ)) = .ok v := by
  rw [List.map_append, List.map_cons] at h
  have hself (xs : List (Except ε (Option Bool))) : List.Forall₂ Refines xs xs :=
    List.forall₂_same.mpr fun x _ v hv => hv
  refine chain_refines (List.rel_append (hself _) (.cons (fun t ht => ?_) (hself _))) acc v h
  rw [cond_of_boolConst hc ht]

/-- What the arguments of a connective make, kept and pending, is kept to the end. -/
theorem gather_spec (and : Bool) (kept : List (Node τ)) (haveNull : Bool) (pending : List (Node τ))
    {v : Option Bool}
    (h : chain (!and) (startOf and haveNull) ((kept ++ pending).map (cond ρ)) = .ok v) :
    match gather and kept haveNull pending with
    | none => v = some !and
    | some (kept', haveNull') => chain (!and) (startOf and haveNull') (kept'.map (cond ρ)) = .ok v := by
  induction kept, haveNull, pending using gather.induct and with
  | case1 kept haveNull =>
    rw [gather]
    simpa using h
  | case2 kept haveNull pending inner loc ih =>
    rw [gather, if_pos rfl]
    refine ih ?_
    rw [List.map_append, List.map_cons, cond_connective, chain_flatten] at h
    rw [List.map_append, List.map_append]
    exact h
  | case3 kept haveNull pending op inner loc hop ih =>
    rw [gather, if_neg hop]
    refine ih ?_
    rwa [List.append_assoc]
  | case4 kept haveNull pending arg hne hconst =>
    rw [gather_cons hne, hconst]
    have h' := chain_of_const hconst h
    rw [constTruth_decides] at h'
    simpa using chain_decides h'
  | case5 kept haveNull pending arg hne hconst hdec ih =>
    rw [gather_cons hne, hconst]
    have h' := chain_of_const hconst h
    rw [constTruth_dropped, chain_drop] at h'
    simp only [if_neg hdec, if_true]
    exact ih (by rwa [List.map_append])
  | case6 kept haveNull pending arg hne c hconst hdec hdrop ih =>
    rw [gather_cons hne, hconst]
    have h' := chain_of_const hconst h
    rw [eq_null_of_ne hdec hdrop] at h'
    simp only [if_neg hdec, if_neg hdrop]
    exact ih (by rw [List.map_append]; exact chain_null h')
  | case7 kept haveNull pending arg hne hconst ih =>
    rw [gather_cons hne, hconst]
    refine ih ?_
    rwa [List.append_assoc]

/-- What is made of the arguments gathered is the connective of them. -/
theorem cond_connective_gathered (and : Bool) {kept : List (Node τ)} {haveNull : Bool} {v : Option Bool}
    (h : chain (!and) (startOf and haveNull) (kept.map (cond ρ)) = .ok v) :
    cond ρ (connective and (some (kept, haveNull))) = .ok v := by
  cases kept with
  | nil =>
    obtain rfl := Except.ok.inj h
    simp only [connective, cond_constNode]
    cases haveNull
    · simp only [Bool.false_eq_true, if_false, constTruth_dropped, startOf]
    · rfl
  | cons arg kept =>
    have h' : chain (!and) (some !!and)
        ((if haveNull then (arg :: kept) ++ [constNode .null] else arg :: kept).map (cond ρ)) = .ok v := by
      cases haveNull
      · simpa only [Bool.false_eq_true, if_false, startOf] using h
      · simp only [if_true, startOf, List.map_append, List.map_singleton, cond_constNode, constTruth] at h ⊢
        rwa [chain_null_last]
    simp only [connective]
    split
    · rename_i arg' heq
      rw [heq] at h'
      exact chain_single h'
    · rw [boolExpr, cond_connective]
      exact h'

theorem connective_refines (and : Bool) (args : List (Node τ)) :
    Refines (chain (!and) (some !!and) (args.map (cond ρ))) (cond ρ (connective and (gather and [] false args))) := by
  intro v hv
  have hspec := gather_spec and [] false args hv
  cases hg : gather and [] false args with
  | none =>
    rw [hg] at hspec
    obtain rfl := hspec
    rw [connective, cond_constNode, constTruth_decides]
  | some result =>
    obtain ⟨kept, haveNull⟩ := result
    rw [hg] at hspec
    exact cond_connective_gathered and hspec

theorem eval_between (not : Bool) (x lo hi : Node τ) :
    eval ρ (between not x lo hi) = betweenOf ρ not (eval ρ x) (eval ρ lo) (eval ρ hi) := by
  cases not <;> simp [between, cmp, eval, betweenOf, condOf]

theorem between_ne_literal (not : Bool) (x lo hi : Node τ) (s : String) (loc : Int) :
    between not x lo hi ≠ .literal s loc := by
  cases not <;> simp [between]

theorem cond_expandBetween (not symmetric : Bool) (x lo hi : Node τ) (loc : Int) :
    cond ρ (expandBetween not symmetric x lo hi) = cond ρ (.between not symmetric x lo hi loc) := by
  rw [cond_of_not_literal (n := .between not symmetric x lo hi loc) (by simp)]
  have hside (lo hi : Node τ) : condOf ρ (between not x lo hi) (eval ρ (between not x lo hi)) =
      truth ρ (betweenOf ρ not (eval ρ x) (eval ρ lo) (eval ρ hi)) := by
    rw [condOf_of_not_literal (between_ne_literal not x lo hi), eval_between]
  cases symmetric with
  | false =>
    simp only [expandBetween, Bool.not_false, if_true, eval, Bool.false_eq_true, if_false]
    exact hside lo hi
  | true =>
    simp only [expandBetween, Bool.not_true, Bool.false_eq_true, if_false, if_true]
    rw [cond_of_not_literal (by simp)]
    cases not <;> simp [eval, hside]

theorem negated_refines {args : List (Node τ)} {loc : Int} {simplified : List (Node τ)}
    (h : List.Forall₂ Refines (args.map (cond ρ)) (simplified.map (cond ρ))) :
    Refines (cond ρ (.boolExpr .not args loc)) (cond ρ (negated (.boolExpr .not args loc) simplified)) := by
  unfold negated
  split
  · rename_i arg
    intro v hv
    rw [cond_not] at hv
    have hone : cond ρ (boolExpr .not [arg]) = .ok v := by
      rw [boolExpr, cond_not]
      cases hx : args.map (cond ρ) with
      | nil =>
        rw [hx] at h
        cases h
      | cons c cs =>
        rw [hx] at h hv
        cases h with
        | cons hc _ => exact map_refines hc _ v hv
    have hconst (c : ConstQual) (hc : boolConst arg = some c) : v = (constTruth c).map (! ·) := by
      rw [boolExpr, cond_not, List.map_singleton] at hone
      cases ht : cond ρ arg with
      | error e =>
        rw [ht] at hone
        cases hone
      | ok t =>
        rw [ht, cond_of_boolConst hc ht] at hone
        exact (Except.ok.inj hone).symm
    split
    · rename_i hc
      rw [cond_constNode, hconst .true hc]
      rfl
    · rename_i hc
      rw [cond_constNode, hconst .false hc]
      rfl
    · rename_i hc
      rw [cond_constNode, hconst .null hc]
      rfl
    · exact hone
  · exact fun v hv => hv

theorem cond_simplify (n : Node τ) : Refines (cond ρ n) (cond ρ (simplify user n)) := by
  have hargs {args : List (Node τ)} (ih : ∀ a ∈ args, Refines (cond ρ a) (cond ρ (simplify user a))) :
      List.Forall₂ Refines (args.map (cond ρ)) ((args.map (simplify user)).map (cond ρ)) := by
    rw [List.map_map, List.forall₂_map_left_iff, List.forall₂_map_right_iff, List.forall₂_same]
    exact ih
  induction n using simplify.induct user with
  | case1 op l r loc h =>
    rw [simplify, if_pos h]
    exact condOf_refines (eval_foldExpr _)
  | case2 op l r loc h =>
    rw [simplify, if_neg h]
    exact fun v hv => hv
  | case3 isNull arg loc h =>
    rw [simplify, if_pos h, cond_of_not_literal (by simp), eval]
    intro v hv
    cases ha : eval ρ arg with
    | error e =>
      rw [ha] at hv
      cases hv
    | ok w =>
      rw [ha, eval_of_nullThrough h ha] at hv
      simp only [Except.map, truth, ρ.isNull_null, Except.ok.injEq] at hv
      rw [cond_constNode, ← hv]
      cases isNull <;> rfl
  | case4 isNull arg loc h =>
    rw [simplify, if_neg h]
    exact fun v hv => hv
  | case5 not symmetric x lo hi loc h ih =>
    rw [simplify, if_pos h, ← cond_expandBetween]
    exact fun v hv => ih v (condOf_refines (eval_foldExpr _) v hv)
  | case6 not symmetric x lo hi loc h =>
    rw [simplify, if_neg h]
    exact fun v hv => hv
  | case7 args loc ih =>
    rw [simplify]
    exact negated_refines (hargs ih)
  | case8 args loc ih =>
    rw [simplify]
    exact fun v hv => hv
  | case9 args loc ih =>
    rw [simplify, show BoolOp.and = connectiveOp true from rfl, cond_connective]
    exact fun v hv => connective_refines true _ v (chain_refines (hargs ih) _ v hv)
  | case10 args loc ih =>
    rw [simplify, show BoolOp.or = connectiveOp false from rfl, cond_connective]
    exact fun v hv => connective_refines false _ v (chain_refines (hargs ih) _ v hv)
  | case11 n hop htest hbetween hbool =>
    have hn : simplify user n = n := by
      rw [simplify]
      · exact hop
      · exact htest
      · exact hbetween
      · exact hbool
    rw [hn]
    exact fun v hv => hv

end Sound

/-! ## Canonicalisation -/

section Canonicalize

variable {τ : Type}

/-- The arguments kept in an AND or OR of a WHERE, where NULL is FALSE: `none` when one decides it. -/
def keepArgs (and : Bool) : List (Node τ) → Option (List (Node τ))
  | [] => some []
  | arg :: args =>
    match boolConst arg with
    | some .true => if and then keepArgs and args else none
    | some _ => if and then none else keepArgs and args
    | none => (keepArgs and args).map (arg :: ·)

/-- `find_duplicate_ors`' constant handling for a WHERE. -/
def canonicalize (n : Node τ) : Node τ :=
  match n with
  | .boolExpr op args loc =>
    if op ≠ .and ∧ op ≠ .or then .boolExpr op args loc
    else
      match keepArgs (op == .and) (args.map canonicalize) with
      | none => constNode (decides (op == .and))
      | some [] => constNode (dropped (op == .and))
      | some [arg] => arg
      | some kept => boolExpr op kept
  | n => n

end Canonicalize

/-! ## The WHERE -/

section Where

variable {τ : Type}

mutual

/-- `==` on parse trees. -/
def sameNode [DecidableEq τ] : Node τ → Node τ → Bool
  | .null loc, .null loc' => loc == loc'
  | .boolean b loc, .boolean b' loc' => b == b' && loc == loc'
  | .literal s loc, .literal s' loc' => s == s' && loc == loc'
  | .typeCast ty arg loc, .typeCast ty' arg' loc' => ty == ty' && sameNode arg arg' && loc == loc'
  | .opExpr op l r loc, .opExpr op' l' r' loc' => op == op' && sameNode l l' && sameNode r r' && loc == loc'
  | .between n sym x lo hi loc, .between n' sym' x' lo' hi' loc' =>
    n == n' && sym == sym' && sameNode x x' && sameNode lo lo' && sameNode hi hi' && loc == loc'
  | .nullTest b arg loc, .nullTest b' arg' loc' => b == b' && sameNode arg arg' && loc == loc'
  | .boolExpr op args loc, .boolExpr op' args' loc' => op == op' && sameNodes args args' && loc == loc'
  | .other tag args, .other tag' args' => tag == tag' && sameNodes args args'
  | _, _ => false

def sameNodes [DecidableEq τ] : List (Node τ) → List (Node τ) → Bool
  | [], [] => true
  | a :: as, b :: bs => sameNode a b && sameNodes as bs
  | _, _ => false

end

/-- The outcome of simplifying a WHERE. -/
inductive Simplified (τ : Type) where
  | unchanged
  /-- The whole WHERE is the constant. -/
  | constant (c : ConstQual)
  /-- The WHERE with its constants simplified away. -/
  | rewritten (n : Node τ)

def simplifyWhere [DecidableEq τ] (user : String → Bool) (whereClause : Node τ) : Simplified τ :=
  if !hasConstant user whereClause then .unchanged
  else
    let out := canonicalize (simplify user whereClause)
    match boolConst out with
    | some c => .constant c
    | none => if sameNode out whereClause then .unchanged else .rewritten out

/-! ## Canonicalising reads NULL as FALSE -/

variable {user : String → Bool} {α ε : Type} {ρ : Row user τ α ε}

/-- An argument of an AND or OR in a WHERE: a constant NULL is FALSE. -/
def readArg (ρ : Row user τ α ε) (arg : Node τ) : Except ε (Option Bool) :=
  match boolConst arg with
  | some .true => .ok (some true)
  | some _ => .ok (some false)
  | none => cond ρ arg

theorem readArg_weakens (arg : Node τ) : Weakens (cond ρ arg) (readArg ρ arg) := by
  intro v hv
  unfold readArg
  split
  · rename_i hc
    obtain rfl := cond_of_boolConst hc hv
    exact ⟨some true, rfl, .inl rfl⟩
  · rename_i c hne hc
    obtain rfl := cond_of_boolConst hc hv
    cases c with
    | true => exact absurd rfl hne
    | false => exact ⟨some false, rfl, .inl rfl⟩
    | null => exact ⟨some false, rfl, .inr ⟨rfl, rfl⟩⟩
  · exact ⟨v, hv, .inl rfl⟩

/-- The arguments kept make what all of them do. -/
theorem keepArgs_spec (and : Bool) {acc : Option Bool} {args : List (Node τ)} {v : Option Bool}
    (h : chain (!and) acc (args.map (readArg ρ)) = .ok v) :
    match keepArgs and args with
    | none => v = some !and
    | some kept => chain (!and) acc (kept.map (cond ρ)) = .ok v := by
  induction args generalizing acc with
  | nil => exact h
  | cons arg args ih =>
    rw [List.map_cons] at h
    cases hc : boolConst arg with
    | some c =>
      simp only [readArg, hc] at h
      simp only [keepArgs, hc]
      cases c with
      | true =>
        cases and
        · exact (Except.ok.inj h).symm
        · exact ih h
      | false | null =>
        cases and
        · exact ih h
        · exact (Except.ok.inj h).symm
    | none =>
      simp only [readArg, hc] at h
      simp only [keepArgs, hc]
      cases hw : cond ρ arg with
      | error e =>
        rw [hw] at h
        cases h
      | ok w =>
        rw [hw] at h
        obtain rfl | rfl | rfl := truth_cases (!and) w
        · have hv : v = some !and := @chain_decides _ _ _ [] _ _ h
          cases keepArgs and args with
          | none => exact hv
          | some kept => simp [chain, hw, hv]
        · have hrest := @ih none h
          cases hk : keepArgs and args with
          | none => simpa [hk] using hrest
          | some kept => simpa [hk, hw, chain] using hrest
        · rw [chain_cons_not] at h
          have hrest := ih h
          cases hk : keepArgs and args with
          | none => simpa [hk] using hrest
          | some kept => simpa [hk, hw, chain] using hrest

/-- Canonicalising keeps what a condition is but for FALSE in place of NULL. -/
theorem cond_canonicalize (n : Node τ) : Weakens (cond ρ n) (cond ρ (canonicalize n)) := by
  have hself (m : Node τ) : Weakens (cond ρ m) (cond ρ m) := fun v hv => ⟨v, hv, .inl rfl⟩
  induction n using Node.induct with
  | boolExpr op args loc ih =>
    rw [canonicalize]
    split_ifs with hop
    · exact hself _
    have hand : op = connectiveOp (op == .and) := by
      cases op <;> simp_all [connectiveOp]
    intro v hv
    rw [hand, cond_connective] at hv
    have hread : List.Forall₂ Weakens (args.map (cond ρ)) ((args.map canonicalize).map (readArg ρ)) := by
      rw [List.map_map, List.forall₂_map_left_iff, List.forall₂_map_right_iff, List.forall₂_same]
      exact fun a ha => (ih a ha).trans (readArg_weakens _)
    obtain ⟨w, hw, hvw⟩ := chain_weakens hread (.inl rfl) (by simp) v hv
    refine ⟨w, ?_, hvw⟩
    have hspec := keepArgs_spec (op == .and) hw
    split at hspec
    · rename_i hk
      rw [hk, hspec]
      exact (cond_constNode _).trans (by rw [constTruth_decides])
    · rename_i kept hk
      rw [hk]
      split
      · rename_i heq
        cases heq
      · rename_i heq
        cases heq
        rw [cond_constNode, constTruth_dropped]
        exact hspec
      · rename_i arg heq
        cases heq
        exact chain_single hspec
      · rename_i kept' _ _ heq
        cases heq
        rw [boolExpr]
        conv_lhs => rw [hand]
        rw [cond_connective]
        exact hspec
  | _ => 
    rw [canonicalize]
    · exact hself _
    all_goals simp

/-- What the outcome of simplifying a WHERE is for a row. -/
def outcome (ρ : Row user τ α ε) (whereClause : Node τ) : Simplified τ → Except ε (Option Bool)
  | .unchanged => cond ρ whereClause
  | .constant c => .ok (constTruth c)
  | .rewritten n => cond ρ n

/-- Where a WHERE evaluates without error, so does what is made of it, and the one is TRUE exactly
    when the other is. -/
theorem simplifyWhere_true_iff [DecidableEq τ] (ρ : Row user τ α ε) (whereClause : Node τ)
    {t : Option Bool} (h : cond ρ whereClause = .ok t) :
    ∃ t', outcome ρ whereClause (simplifyWhere user whereClause) = .ok t' ∧
      (t' = some true ↔ t = some true) := by
  unfold simplifyWhere
  split_ifs with hconst
  · exact ⟨t, h, Iff.rfl⟩
  obtain ⟨w, hw, hweak⟩ := cond_canonicalize (simplify user whereClause) t (cond_simplify _ t h)
  have htrue : w = some true ↔ t = some true := by
    obtain rfl | ⟨rfl, rfl⟩ := hweak <;> simp
  simp only
  split
  · rename_i c hc
    exact ⟨constTruth c, rfl, by rw [← cond_of_boolConst hc hw, htrue]⟩
  · split_ifs
    · exact ⟨t, h, Iff.rfl⟩
    · exact ⟨w, hw, htrue⟩

/-- A row of integers: conditions and columns by name, `=` and `<` on integers. -/
def integers (column : String → Value Int) : Row (fun _ => false) String Int Unit where
  cast _ v := .ok v
  cast_null _ _ h := (Except.ok.inj h).symm
  cast_bool := rfl
  apply op a b :=
    match a, b with
    | .other x, .other y => if op = "=" then .ok (.bool (x == y)) else
      if op = "<" then .ok (.bool (x < y)) else .error ()
    | .null, _ => .ok .null
    | _, .null => .ok .null
    | _, _ => .error ()
  apply_null op a b v _ _ hnull h := by
    obtain rfl | rfl := hnull
    · exact (Except.ok.inj h).symm
    · cases a <;> exact (Except.ok.inj h).symm
  isNull b
    | .null => b
    | _ => !b
  isNull_null _ := rfl
  literal _ := .null
  readBool _ := .error ()
  mismatch _ := ()
  unsupported := ()
  other name _ := .ok (column name)
  other_refines _ _ _ _ _ h := h

/-- `b AND TRUE` where `b` is TRUE. -/
theorem simplifyWhere_true_iff_and :
    ∃ t', outcome (integers fun _ => .bool true) (.boolExpr .and [.other "b" [], .boolean true 4] 2)
        (simplifyWhere (fun _ => false) (.boolExpr .and [.other "b" [], .boolean true 4] 2)) = .ok t' ∧
      (t' = some true ↔ some true = some true) :=
  simplifyWhere_true_iff (integers fun _ => .bool true) (.boolExpr .and [.other "b" [], .boolean true 4] 2)
    (by simp [cond, condOf, eval, integers, truth, connect, chain, ofTruth, Except.map])

end Where

end Secantus.ConstQuals
