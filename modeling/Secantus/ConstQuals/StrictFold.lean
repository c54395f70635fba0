/-
  Expressions, what they evaluate to, and the folding of strict operators over NULL
  (`strict_fold.rs`).

  A comparison one of whose operands strictness alone makes NULL is folded to `NULL::bool`, however
  deep. Conditions of any other kind are nodes with a tag and operands; what they compute is a
  parameter that may leave operands unevaluated but never turns a raised error into an answer.

  * `eval_of_nullThrough`: a node NULL by strictness alone evaluates to NULL, if to anything;
  * `eval_foldExpr`: folding keeps what a node evaluates to.
-/
import Secantus.Library.ThreeValued

namespace Secantus.ConstQuals

open ThreeValued

/-! ## Expressions -/

/-- The parts of a type's name that are read: its names, modifier and array bounds. -/
structure TypeName where
  names : List String
  typemod : Int
  arrayBounds : List Int
  deriving DecidableEq, Repr

inductive BoolOp where
  | and
  | or
  | not
  | undefined
  deriving DecidableEq, Repr

/-- A parse tree, each node with its place in the statement's text. `τ` tags the nodes that no rule
    here looks into: columns, calls, `IN`, `CASE` and so on. -/
inductive Node (τ : Type) where
  | null (location : Int)
  | boolean (b : Bool) (location : Int)
  /-- An untyped string literal. -/
  | literal (s : String) (location : Int)
  | typeCast (ty : TypeName) (arg : Node τ) (location : Int)
  /-- An operator between two operands. -/
  | opExpr (op : String) (l r : Node τ) (location : Int)
  /-- `x [NOT] BETWEEN [SYMMETRIC] lo AND hi`. -/
  | between (not symmetric : Bool) (x lo hi : Node τ) (location : Int)
  | nullTest (isNull : Bool) (arg : Node τ) (location : Int)
  | boolExpr (op : BoolOp) (args : List (Node τ)) (location : Int)
  | other (tag : τ) (args : List (Node τ))

namespace Node

variable {τ : Type}

/-- Induction over expressions: a list of operands holds for each. -/
@[elab_as_elim]
theorem induct {P : Node τ → Prop} (null : ∀ loc, P (null loc)) (boolean : ∀ b loc, P (boolean b loc))
    (literal : ∀ s loc, P (literal s loc)) (typeCast : ∀ ty arg loc, P arg → P (typeCast ty arg loc))
    (opExpr : ∀ op l r loc, P l → P r → P (opExpr op l r loc))
    (between : ∀ n sym x lo hi loc, P x → P lo → P hi → P (between n sym x lo hi loc))
    (nullTest : ∀ b arg loc, P arg → P (nullTest b arg loc))
    (boolExpr : ∀ op args loc, (∀ a ∈ args, P a) → P (boolExpr op args loc))
    (other : ∀ tag args, (∀ a ∈ args, P a) → P (other tag args)) : ∀ n, P n
  | .null loc => null loc
  | .boolean b loc => boolean b loc
  | .literal s loc => literal s loc
  | .typeCast ty arg loc =>
    typeCast ty arg loc (induct null boolean literal typeCast opExpr between nullTest boolExpr other arg)
  | .opExpr op l r loc =>
    opExpr op l r loc (induct null boolean literal typeCast opExpr between nullTest boolExpr other l)
      (induct null boolean literal typeCast opExpr between nullTest boolExpr other r)
  | .between n sym x lo hi loc =>
    between n sym x lo hi loc (induct null boolean literal typeCast opExpr between nullTest boolExpr other x)
      (induct null boolean literal typeCast opExpr between nullTest boolExpr other lo)
      (induct null boolean literal typeCast opExpr between nullTest boolExpr other hi)
  | .nullTest b arg loc =>
    nullTest b arg loc (induct null boolean literal typeCast opExpr between nullTest boolExpr other arg)
  | .boolExpr op args loc =>
    boolExpr op args loc fun a _ =>
      induct null boolean literal typeCast opExpr between nullTest boolExpr other a
  | .other tag args =>
    other tag args fun a _ => induct null boolean literal typeCast opExpr between nullTest boolExpr other a

end Node

/-! ## Values -/

/-- An SQL value: NULL, a boolean, or a value of another type. -/
inductive Value (α : Type) where
  | null
  | bool (b : Bool)
  | other (a : α)

/-- A truth value as an SQL value. -/
def ofTruth {α : Type} : Option Bool → Value α
  | none => .null
  | some b => .bool b

/-- `STRICT`: the built-in operators every overload of which is strict. -/
def STRICT : List String := ["+", "-", "*", "/", "%", "^", "=", "<>", "!=", "<", "<=", ">", ">="]

/-- `COMPARISON`: their folded NULL is a boolean. -/
def COMPARISON : List String := ["=", "<>", "!=", "<", "<=", ">", ">="]

/-- `pg_catalog.bool`. -/
def boolType : TypeName := ⟨["pg_catalog", "bool"], -1, []⟩

/-- What the nodes no rule looks into compute for one row. `user` tells the operators a user has given
    a definition of their own. -/
structure Row (user : String → Bool) (τ α ε : Type) where
  cast : TypeName → Value α → Except ε (Value α)
  /-- A cast of NULL answers NULL, if it answers. -/
  cast_null : ∀ ty v, cast ty .null = .ok v → v = .null
  cast_bool : cast boolType .null = .ok .null
  apply : String → Value α → Value α → Except ε (Value α)
  /-- A strict operator beside a NULL answers NULL, if it answers. -/
  apply_null : ∀ op a b v, op ∈ STRICT → user op = false → a = .null ∨ b = .null →
    apply op a b = .ok v → v = .null
  /-- `IS NULL` and `IS NOT NULL` (of a row value they are no opposites). -/
  isNull : Bool → Value α → Bool
  isNull_null : ∀ b, isNull b .null = b
  /-- An untyped literal as a value, and read as a boolean. -/
  literal : String → Value α
  readBool : String → Except ε (Option Bool)
  /-- `argument of AND must be type boolean`. -/
  mismatch : Value α → ε
  unsupported : ε
  other : τ → List (Except ε (Value α)) → Except ε (Value α)
  /-- An operand that raised is never what an answer rests on. -/
  other_refines : ∀ tag xs ys, List.Forall₂ Refines xs ys → Refines (other tag xs) (other tag ys)

/-! ## Evaluation -/

section Eval

variable {user : String → Bool} {τ α ε : Type} (ρ : Row user τ α ε)

/-- A value as a condition. -/
def truth : Except ε (Value α) → Except ε (Option Bool)
  | .error e => .error e
  | .ok .null => .ok none
  | .ok (.bool b) => .ok (some b)
  | .ok v => .error (ρ.mismatch v)

/-- An operator: the right operand is evaluated first. -/
def applyTo (op : String) (l r : Except ε (Value α)) : Except ε (Value α) := do
  let r ← r
  let l ← l
  ρ.apply op l r

/-- AND (`stop` is FALSE) or OR of conditions. -/
def connect (stop : Bool) (xs : List (Except ε (Option Bool))) : Except ε (Value α) :=
  (chain stop (some !stop) xs).map ofTruth

/-- `x BETWEEN lo AND hi`, or its negation. -/
def betweenOf (not : Bool) (x lo hi : Except ε (Value α)) : Except ε (Value α) :=
  if not then connect true [truth ρ (applyTo ρ "<" x lo), truth ρ (applyTo ρ ">" x hi)]
  else connect false [truth ρ (applyTo ρ ">=" x lo), truth ρ (applyTo ρ "<=" x hi)]

/-- NOT reads its first operand only. -/
def negate (conds : List (Except ε (Option Bool))) : Except ε (Value α) :=
  match conds with
  | [] => .ok .null
  | c :: _ => c.map fun t => ofTruth (t.map (! ·))

/-- What a node is as a condition, given its value: an untyped literal is read as a boolean. -/
def condOf (n : Node τ) (v : Except ε (Value α)) : Except ε (Option Bool) :=
  match n with
  | .literal s _ => ρ.readBool s
  | _ => truth ρ v

/-- `const_value` for one row. -/
def eval : Node τ → Except ε (Value α)
  | .null _ => .ok .null
  | .boolean b _ => .ok (.bool b)
  | .literal s _ => .ok (ρ.literal s)
  | .typeCast ty arg _ => (eval arg).bind (ρ.cast ty)
  | .opExpr op l r _ => applyTo ρ op (eval l) (eval r)
  | .between not symmetric x lo hi _ =>
    if symmetric then
      connect (!not) [truth ρ (betweenOf ρ not (eval x) (eval lo) (eval hi)),
        truth ρ (betweenOf ρ not (eval x) (eval hi) (eval lo))]
    else betweenOf ρ not (eval x) (eval lo) (eval hi)
  | .nullTest isNull arg _ => (eval arg).map fun v => .bool (ρ.isNull isNull v)
  | .boolExpr op args _ =>
    let conds := args.map fun a => condOf ρ a (eval a)
    match op with
    | .and => connect false conds
    | .or => connect true conds
    | .not => negate conds
    | .undefined => .error ρ.unsupported
  | .other tag args => ρ.other tag (args.map eval)

/-- What a node is as a condition. -/
def cond (n : Node τ) : Except ε (Option Bool) := condOf ρ n (eval ρ n)

end Eval

/-! ## Folding -/

section Fold

variable {τ : Type}

def isNullConstant : Node τ → Bool
  | .null _ => true
  | .typeCast _ arg _ => isNullConstant arg
  | _ => false

/-- `NULL::pg_catalog.bool`, the value and type a folded comparison has. -/
def nullBool : Node τ := .typeCast boolType (.null 0) (-1)

variable (user : String → Bool)

/-- A strict, built-in, not user-redefined operator node: its operator. -/
def strictOp : Node τ → Option String
  | .opExpr op _ _ _ => if STRICT.contains op && !user op then some op else none
  | _ => none

/-- Is the node NULL by strictness alone: a NULL constant, or a strict operator with such an operand,
    however deep. -/
def nullThrough : Node τ → Bool
  | .opExpr op l r _ => STRICT.contains op && !user op && (nullThrough l || nullThrough r)
  | n => isNullConstant n

/-- Is this a comparison that strictness makes NULL? -/
def foldsHere (n : Node τ) : Bool :=
  (match strictOp user n with
    | some op => COMPARISON.contains op
    | none => false) && nullThrough user n

/-- `fold_expr`: each comparison that strictness makes NULL becomes `NULL::bool`, outermost first. -/
def foldExpr (n : Node τ) : Node τ :=
  if foldsHere user n then nullBool
  else
    match n with
    | .typeCast ty arg loc => .typeCast ty (foldExpr arg) loc
    | .opExpr op l r loc => .opExpr op (foldExpr l) (foldExpr r) loc
    | .between not symmetric x lo hi loc => .between not symmetric (foldExpr x) (foldExpr lo) (foldExpr hi) loc
    | .nullTest isNull arg loc => .nullTest isNull (foldExpr arg) loc
    | .boolExpr op args loc => .boolExpr op (args.map foldExpr) loc
    | .other tag args => .other tag (args.map foldExpr)
    | .null loc => .null loc
    | .boolean b loc => .boolean b loc
    | .literal s loc => .literal s loc

/-- Whether `fold_expr` changed anything. -/
def foldChanges (n : Node τ) : Bool :=
  foldsHere user n ||
    match n with
    | .typeCast _ arg _ => foldChanges arg
    | .opExpr _ l r _ => foldChanges l || foldChanges r
    | .between _ _ x lo hi _ => foldChanges x || foldChanges lo || foldChanges hi
    | .nullTest _ arg _ => foldChanges arg
    | .boolExpr _ args _ => (args.map foldChanges).any id
    | .other _ args => (args.map foldChanges).any id
    | .null _ | .boolean _ _ | .literal _ _ => false

end Fold

/-! ## Folding keeps what a node evaluates to -/

section Sound

variable {user : String → Bool} {τ α ε : Type} {ρ : Row user τ α ε}

theorem eval_of_isNullConstant {n : Node τ} (h : isNullConstant n = true) {v : Value α}
    (hv : eval ρ n = .ok v) : v = .null := by
  induction n using Node.induct generalizing v with
  | null loc =>
    simp only [eval, Except.ok.injEq] at hv
    exact hv.symm
  | typeCast ty arg loc ih =>
    simp only [eval] at hv
    cases ha : eval ρ arg with
    | error e => simp [ha, Except.bind] at hv
    | ok w =>
      obtain rfl := ih (by simpa [isNullConstant] using h) ha
      rw [ha] at hv
      exact ρ.cast_null ty v hv
  | _ => simp [isNullConstant] at h

theorem applyTo_eq_ok {op : String} {l r : Except ε (Value α)} {v : Value α}
    (h : applyTo ρ op l r = .ok v) : ∃ a b, l = .ok a ∧ r = .ok b ∧ ρ.apply op a b = .ok v := by
  unfold applyTo at h
  cases r with
  | error e => cases h
  | ok b =>
    cases l with
    | error e => cases h
    | ok a => exact ⟨a, b, rfl, rfl, h⟩

theorem nullThrough_opExpr {op : String} {l r : Node τ} {loc : Int}
    (h : nullThrough user (.opExpr op l r loc) = true) :
    op ∈ STRICT ∧ user op = false ∧ (nullThrough user l = true ∨ nullThrough user r = true) := by
  simpa [nullThrough, and_assoc] using h

/-- A node NULL by strictness alone evaluates to NULL, if to anything. -/
theorem eval_of_nullThrough {n : Node τ} (h : nullThrough user n = true) {v : Value α}
    (hv : eval ρ n = .ok v) : v = .null := by
  induction n using Node.induct generalizing v with
  | opExpr op l r loc ihl ihr =>
    obtain ⟨hop, huser, hnull⟩ := nullThrough_opExpr h
    rw [eval] at hv
    obtain ⟨a, b, ha, hb, happly⟩ := applyTo_eq_ok hv
    refine ρ.apply_null op a b v hop huser ?_ happly
    exact hnull.imp (fun hl => ihl hl ha) (fun hr => ihr hr hb)
  | _ => exact eval_of_isNullConstant (by simpa [nullThrough] using h) hv

@[simp] theorem eval_nullBool : eval ρ (nullBool (τ := τ)) = .ok .null := by
  simp only [nullBool, eval]
  exact ρ.cast_bool

theorem truth_refines {x y : Except ε (Value α)} (h : Refines x y) : Refines (truth ρ x) (truth ρ y) := by
  intro v hv
  cases x with
  | error e => cases hv
  | ok w => rw [h w rfl, hv]

theorem map_refines {β γ : Type} {x y : Except ε β} (h : Refines x y) (f : β → γ) :
    Refines (x.map f) (y.map f) := by
  intro v hv
  cases x with
  | error e => cases hv
  | ok w => rw [h w rfl, hv]

theorem applyTo_refines {op : String} {l l' r r' : Except ε (Value α)} (hl : Refines l l')
    (hr : Refines r r') : Refines (applyTo ρ op l r) (applyTo ρ op l' r') := by
  intro v hv
  obtain ⟨a, b, rfl, rfl, happly⟩ := applyTo_eq_ok hv
  rw [hl a rfl, hr b rfl]
  exact happly

theorem connect_refines {stop : Bool} {xs ys : List (Except ε (Option Bool))}
    (h : List.Forall₂ Refines xs ys) :
    Refines (connect (α := α) stop xs) (connect stop ys) :=
  map_refines (chain_refines h _) _

theorem betweenOf_refines {not : Bool} {x x' lo lo' hi hi' : Except ε (Value α)} (hx : Refines x x')
    (hlo : Refines lo lo') (hhi : Refines hi hi') :
    Refines (betweenOf ρ not x lo hi) (betweenOf ρ not x' lo' hi') := by
  unfold betweenOf
  have hpair (o o' : String) : List.Forall₂ Refines
      [truth ρ (applyTo ρ o x lo), truth ρ (applyTo ρ o' x hi)]
      [truth ρ (applyTo ρ o x' lo'), truth ρ (applyTo ρ o' x' hi')] :=
    .cons (truth_refines (applyTo_refines hx hlo)) (.cons (truth_refines (applyTo_refines hx hhi)) .nil)
  split_ifs
  · exact connect_refines (hpair "<" ">")
  · exact connect_refines (hpair ">=" "<=")

theorem negate_refines {xs ys : List (Except ε (Option Bool))} (h : List.Forall₂ Refines xs ys) :
    Refines (negate (α := α) xs) (negate ys) := by
  cases h with
  | nil => exact fun v hv => hv
  | cons hxy _ => exact map_refines hxy _

theorem refines_nullBool {n : Node τ} (h : foldsHere user n = true) :
    Refines (eval ρ n) (eval ρ (nullBool (τ := τ))) := by
  intro v hv
  have hnull : nullThrough user n = true := (Bool.and_eq_true _ _ ▸ h).2
  rw [eval_nullBool, eval_of_nullThrough hnull hv]

theorem condOf_of_not_literal {n : Node τ} (h : ∀ s loc, n ≠ .literal s loc) (v : Except ε (Value α)) :
    condOf ρ n v = truth ρ v := by
  cases n with
  | literal s loc => exact absurd rfl (h s loc)
  | _ => rfl

theorem foldExpr_literal (s : String) (loc : Int) :
    foldExpr user (.literal s loc : Node τ) = .literal s loc := by
  rw [foldExpr]
  rfl

theorem foldExpr_ne_literal {n : Node τ} (h : ∀ s loc, n ≠ .literal s loc) (s : String) (loc : Int) :
    foldExpr user n ≠ .literal s loc := by
  cases n with
  | literal s' loc' => exact absurd rfl (h s' loc')
  | _ =>
    rw [foldExpr]
    split_ifs <;> exact nofun

/-- Folding keeps what a node is as a condition, if it keeps what the node evaluates to. -/
theorem condOf_refines {n : Node τ} (h : Refines (eval ρ n) (eval ρ (foldExpr user n))) :
    Refines (condOf ρ n (eval ρ n)) (condOf ρ (foldExpr user n) (eval ρ (foldExpr user n))) := by
  by_cases hlit : ∃ s loc, n = .literal s loc
  · obtain ⟨s, loc, rfl⟩ := hlit
    rw [foldExpr_literal]
    exact fun v hv => hv
  · have hne : ∀ s loc, n ≠ .literal s loc := fun s loc heq => hlit ⟨s, loc, heq⟩
    rw [condOf_of_not_literal hne, condOf_of_not_literal (foldExpr_ne_literal hne)]
    exact truth_refines h

theorem eval_foldExpr (n : Node τ) : Refines (eval ρ n) (eval ρ (foldExpr user n)) := by
  induction n using Node.induct with
  | null loc | boolean b loc | literal s loc =>
    rw [foldExpr]
    exact fun v hv => hv
  | typeCast ty arg loc ih =>
    rw [foldExpr]
    split_ifs with h
    · exact refines_nullBool h
    · intro v hv
      rw [eval] at hv
      cases ha : eval ρ arg with
      | error e =>
        rw [ha] at hv
        cases hv
      | ok w =>
        rw [ha] at hv
        rw [eval, ih w ha]
        exact hv
  | opExpr op l r loc ihl ihr =>
    rw [foldExpr]
    split_ifs with h
    · exact refines_nullBool h
    · simp only [eval]
      exact applyTo_refines ihl ihr
  | between neg sym x lo hi loc ihx ihlo ihhi =>
    rw [foldExpr]
    split_ifs with h
    · exact refines_nullBool h
    · simp only [eval]
      split_ifs
      · exact connect_refines (.cons (truth_refines (betweenOf_refines ihx ihlo ihhi))
          (.cons (truth_refines (betweenOf_refines ihx ihhi ihlo)) .nil))
      · exact betweenOf_refines ihx ihlo ihhi
  | nullTest b arg loc ih =>
    rw [foldExpr]
    split_ifs with h
    · exact refines_nullBool h
    · simp only [eval]
      exact map_refines ih _
  | boolExpr op args loc ih =>
    rw [foldExpr]
    split_ifs with h
    · exact refines_nullBool h
    · have hconds : List.Forall₂ Refines (args.map fun a => condOf ρ a (eval ρ a))
          ((args.map (foldExpr user)).map fun a => condOf ρ a (eval ρ a)) := by
        rw [List.map_map, List.forall₂_map_left_iff, List.forall₂_map_right_iff, List.forall₂_same]
        exact fun a ha => condOf_refines (ih a ha)
      cases op <;> simp only [eval]
      · exact connect_refines hconds
      · exact connect_refines hconds
      · exact negate_refines hconds
      · exact fun v hv => hv
  | other tag args ih =>
    rw [foldExpr]
    split_ifs with h
    · exact refines_nullBool h
    · simp only [eval]
      refine ρ.other_refines tag _ _ ?_
      rw [List.map_map, List.forall₂_map_left_iff, List.forall₂_map_right_iff, List.forall₂_same]
      exact ih

end Sound

end Secantus.ConstQuals
