import BeliefRevision.Variable
import BeliefRevision.Formula.Connective

/-!
# Formulas

`Formula` is the type of propositional formulas. The shape of a connective is part of the type: a
negation has one operand and a binary connective two, so only the operand lists of `and` and `or`
can be too short or hold nested junctions. The functions of `Formula.Building` never make such a
list.
-/

namespace BeliefRevision

/-- A propositional formula. -/
inductive Formula where
  /-- A variable. -/
  | var (v : Variable)
  /-- The constant that is always true. -/
  | top
  /-- The constant that is always false. -/
  | bot
  /-- A negation. -/
  | not (p : Formula)
  /-- A conjunction or disjunction of the listed operands. -/
  | join (j : Junction) (operands : List Formula)
  /-- A binary connective between two formulas. -/
  | binary (b : Binary) (p q : Formula)
deriving Repr

namespace Formula

instance : Inhabited Formula := ⟨top⟩

/-- The operands of the outermost connective; a leaf has none. -/
def operands : Formula → List Formula
  | var _ | top | bot => []
  | not p => [p]
  | join _ ps => ps
  | binary _ p q => [p, q]

/-- The outermost connective, which a leaf lacks. -/
def connective? : Formula → Option Connective
  | var _ | top | bot => none
  | not _ => some .negation
  | join j _ => some (.junction j)
  | binary b _ _ => some (.binary b)

end Formula

end BeliefRevision
