/-
  Two equalities of values: Rust's `==` on `Bson` and `diff::same_encoding`.

  `==` compares doubles as IEEE does and documents as maps. `same_encoding` compares doubles by
  their bits and documents field by field, but falls back on `==` for a code's scope.
-/
import Secantus.Bson.Document
import Secantus.Bson.Numeric

namespace Secantus

/-- `Fallback`: an engine defers, or refuses with mongod's code and message. -/
inductive Fallback where
  | defer
  | mongo (code : Int) (message : String)
  deriving DecidableEq, Repr

namespace Bson

mutual

/-- `==` on `Bson`. -/
def eqv (a b : Bson) : Bool :=
  match a, b with
  | .double x, .double y => x.eqv y
  | .string x, .string y => x = y
  | .document x, .document y => x.length = y.length && eqvFields x y
  | .array x, .array y => eqvElements x y
  | .binary x, .binary y => x = y
  | .undefined, .undefined => true
  | .objectId x, .objectId y => x = y
  | .boolean x, .boolean y => x = y
  | .dateTime x, .dateTime y => x = y
  | .null, .null => true
  | .regularExpression x, .regularExpression y => x = y
  | .dbPointer n x, .dbPointer m y => n = m && x = y
  | .javaScriptCode x, .javaScriptCode y => x = y
  | .symbol x, .symbol y => x = y
  | .javaScriptCodeWithScope c x, .javaScriptCodeWithScope c' y =>
    c = c' && x.length = y.length && eqvFields x y
  | .int32 x, .int32 y => x = y
  | .timestamp x, .timestamp y => x = y
  | .int64 x, .int64 y => x = y
  | .decimal128 x, .decimal128 y => x = y
  | .minKey, .minKey => true
  | .maxKey, .maxKey => true
  | _, _ => false

/-- Every field of one document is in the other, equal. -/
def eqvFields : Document → Document → Bool
  | [], _ => true
  | (k, v) :: x, y => (match Document.get y k with | some w => eqv v w | none => false) && eqvFields x y

def eqvElements : List Bson → List Bson → Bool
  | [], [] => true
  | v :: x, w :: y => eqv v w && eqvElements x y
  | _, _ => false

end

/-- `==` on `Document`, a map's. -/
def eqvDoc (x y : Document) : Bool := x.length = y.length && eqvFields x y

mutual

def sameEncoding (a b : Bson) : Bool :=
  match a, b with
  | .double x, .double y => x.bits = y.bits
  | .array x, .array y => sameElements x y
  | .document x, .document y => sameFields x y
  | a, b => eqv a b

/-- The fields of two documents, side by side. -/
def sameFields : Document → Document → Bool
  | [], [] => true
  | (k, v) :: x, (k', w) :: y => k = k' && sameEncoding v w && sameFields x y
  | _, _ => false

def sameElements : List Bson → List Bson → Bool
  | [], [] => true
  | v :: x, w :: y => sameEncoding v w && sameElements x y
  | _, _ => false

end

theorem eqvElements_getElem {x y : List Bson} (h : eqvElements x y = true) :
    x.length = y.length ∧
      ∀ (i : Nat) v w, x[i]? = some v → y[i]? = some w → eqv v w = true := by
  induction x generalizing y with
  | nil =>
    cases y with
    | nil => exact ⟨rfl, by simp⟩
    | cons w y => cases h
  | cons v x ih =>
    cases y with
    | nil => cases h
    | cons w y =>
      rw [eqvElements, Bool.and_eq_true] at h
      obtain ⟨hl, hel⟩ := ih h.2
      refine ⟨by simp [hl], ?_⟩
      intro i v' w' hv hw
      cases i with
      | zero =>
        simp only [List.getElem?_cons_zero, Option.some.injEq] at hv hw
        rw [← hv, ← hw]
        exact h.1
      | succ i => exact hel i v' w' (by simpa using hv) (by simpa using hw)

theorem eq_of_eqv_leaf {v b : Bson} (hv : v.isLeaf = true) (h : eqv v b = true) :
    v = b ∨ ∃ x y, v = .double x ∧ b = .double y ∧ x.eqv y = true := by
  unfold eqv at h
  split at h <;> simp_all [isLeaf]

def isExotic : Bson → Bool
  | .javaScriptCode _ | .javaScriptCodeWithScope _ _ | .symbol _ | .dbPointer _ _ | .undefined => true
  | _ => false

def isJavaScript : Bson → Bool
  | .javaScriptCode _ | .javaScriptCodeWithScope _ _ => true
  | _ => false

def isBoolean : Bson → Bool
  | .boolean _ => true
  | _ => false

end Bson

end Secantus
