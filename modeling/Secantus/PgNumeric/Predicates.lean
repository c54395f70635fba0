/-
  Numeric predicates are lowered exactly: whatever form a number is stored in, a comparison or a list of
  constants selects the row just when PostgreSQL's comparison of the numbers is true.
-/
import Secantus.PgNumeric.Lowering
import Secantus.PgNumeric.Reader

namespace Secantus.PgNumeric

open Secantus Bson BsonOrder Query

/-- Every canonical number has a bracket and a stored form of its value, and a filter of any constants
    matches the rows whose stored number PostgreSQL's comparison is true of. -/
theorem numeric_predicates_exact {fromStr : Text → Option Decimal128} (hr : Reads fromStr) (E : Engines)
    (o : BinDataOrder) :
    (∀ t : Canonical, (∃ b, decimal128Bracket fromStr t.text = some b ∧ b.Holds t.quantity) ∧
      Stored (some (numericBson fromStr t.text)) (some t.quantity)) ∧
    ∀ (doc : Document) (field : String) (v : Option Bson) (q : Option Quantity), Field doc field v → Stored v q →
      (∀ (c : Bson) (x : Quantity), Constant c x → ∀ op : Comparison,
        ∃ f, numericFilter fromStr field op.mql c = some f ∧ matchesFilter E o doc f = .ok (op.test q x)) ∧
      ∀ (cs : List Bson) (xs : List Quantity), List.Forall₂ Constant cs xs → ∀ negated,
        ∃ f, numericInFilter fromStr field cs negated = some f ∧
          matchesFilter E o doc f = .ok (if negated then notInTest q xs else inTest q xs) := by
  refine ⟨fun t => ⟨decimal128Bracket_canonical hr t, numericBson_stored hr t⟩, ?_⟩
  intro doc field v q hf hs
  refine ⟨fun c x hc op => ?_, fun cs xs hc negated => ?_⟩
  · exact matchesFilter_numericFilter hr hf hs hc op
  · exact matchesFilter_numericInFilter hr hf hs hc negated

/-- An integer of 35 digits, too many for a Decimal128. -/
def thirtyFive : Plain where
  neg := false
  int := List.replicate 35 7
  frac := []
  int_ne := by decide
  int_lt := by decide
  frac_lt := by decide
  int_len := by decide
  frac_len := by decide

theorem thirtyFive_above : ∃ f, numericFilter readDecimal "n" "$gt" (.int32 5) = some f ∧
    matchesFilter noEngines .bytes [("n", .document (wideNumeric thirtyFive.text))] f = .ok true := by
  have hfield : Field [("n", .document (wideNumeric thirtyFive.text))] "n"
      (some (.document (wideNumeric thirtyFive.text))) := ⟨by decide, .field _ "n"⟩
  have hrow := (numeric_predicates_exact reads_readDecimal noEngines .bytes).2 _ _ _ _ hfield (.wide thirtyFive)
  have htest : Comparison.gt.test (some (.fin thirtyFive.value)) (.fin (5 : Int32).toInt) = true := by
    decide +kernel
  rw [← htest]
  exact hrow.1 _ _ (.int32 5) .gt

end Secantus.PgNumeric
