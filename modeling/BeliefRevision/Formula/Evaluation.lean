import BeliefRevision.Assignment.Basic

/-!
# Evaluation

`Formula.evaluate` computes the truth value of a formula where all its variables have values. It
looks at every operand, left to right, and fails at the first variable without a value.

`Formula.value?` computes the value as far as a partial assignment settles it: each connective is
settled by its operands' settled values alone. A settled value stays the same however the
assignment is extended. The converse fails, as `p and not p` is not settled before `p` is.
-/

namespace BeliefRevision.Formula

mutual

/-- The truth value of a formula, or the first variable that lacks one. -/
def evaluate (a : Assignment) : Formula → Except Error Bool
  | var v =>
    match a[v]? with
    | some b => .ok b
    | none => .error (.unassigned v)
  | top => .ok true
  | bot => .ok false
  | not p => do return !(← evaluate a p)
  | join j ps => do return j.value (← evaluateAll a ps)
  | binary op p q => do
    let x ← evaluate a p
    let y ← evaluate a q
    return op.value x y

/-- The truth values of a list of formulas, or the first variable that lacks one. -/
def evaluateAll (a : Assignment) : List Formula → Except Error (List Bool)
  | [] => .ok []
  | p :: ps => do
    let x ← evaluate a p
    let xs ← evaluateAll a ps
    return x :: xs

end

mutual

/-- The truth value of a formula as far as the assignment settles it. -/
def value? (a : Assignment) : Formula → Option Bool
  | var v => a[v]?
  | top => some true
  | bot => some false
  | not p => (value? a p).map (!·)
  | join j ps => j.value? (values? a ps)
  | binary op p q => op.value? (value? a p) (value? a q)

/-- The settled truth values of a list of formulas. -/
def values? (a : Assignment) : List Formula → List (Option Bool)
  | [] => []
  | p :: ps => value? a p :: values? a ps

end

end BeliefRevision.Formula
