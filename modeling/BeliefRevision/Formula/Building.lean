import BeliefRevision.Error
import BeliefRevision.Formula.Order

/-!
# Building formulas

Formulas are built through the functions of this file. Operands that are junctions of the kind
being built are replaced by their own operands, and a junction of a single operand is that operand.
So every `and` and `or` that comes out has at least two operands, none of its own kind, whenever
this holds of what goes in.
-/

namespace BeliefRevision.Formula

/-- What a formula contributes to a junction: its own operands if it is that junction, else
itself. -/
def parts (j : Junction) : Formula → List Formula
  | join i ps => if i = j then ps else [join i ps]
  | p => [p]

/-- The junction of the given formulas, or `none` if there is none to join. -/
def join? (j : Junction) (ps : List Formula) : Option Formula :=
  match ps.flatMap (parts j) with
  | [] => none
  | [p] => some p
  | qs => some (join j qs)

/-- The conjunction of the given formulas, or `none` if there is none. -/
def conjunction? (ps : List Formula) : Option Formula := join? .and ps

/-- The disjunction of the given formulas, or `none` if there is none. -/
def disjunction? (ps : List Formula) : Option Formula := join? .or ps

/-- The disjunction of the given formulas; that of no formula is false. -/
def disjunction (ps : List Formula) : Formula := (disjunction? ps).getD bot

/-- The conjunction of two formulas. -/
def and (p q : Formula) : Formula := (conjunction? [p, q]).getD top

/-- The disjunction of two formulas. -/
def or (p q : Formula) : Formula := disjunction [p, q]

/-- Applies a connective to a list of operands, which must be as many as it takes. -/
def apply (c : Connective) (ps : List Formula) : Except Error Formula :=
  match c, ps with
  | .junction j, ps =>
    match join? j ps with
    | some p => .ok p
    | none => .error (.noOperand j)
  | .negation, [p] => .ok (not p)
  | .binary b, [p, q] => .ok (binary b p q)
  | c, ps => .error (.operandCount c ps.length)

/-- The conjunction of `v or not v` for the listed variables. It is always true, and a conjunction
with it mentions all of them. -/
def closure (vs : List Variable) : Formula :=
  (conjunction? (vs.map fun v => or (var v) (not (var v)))).getD top

mutual

/-- The variables of a formula in the order of occurrence, with repetitions. -/
def occurrences : Formula → List Variable
  | var v => [v]
  | top | bot => []
  | not p => occurrences p
  | join _ ps => occurrencesAll ps
  | binary _ p q => occurrences p ++ occurrences q

/-- The variables of a list of formulas in the order of occurrence. -/
def occurrencesAll : List Formula → List Variable
  | [] => []
  | p :: ps => occurrences p ++ occurrencesAll ps

end

/-- The variables that occur in a formula. -/
def vocabulary (p : Formula) : Vocabulary := .ofList (occurrences p)

end BeliefRevision.Formula
