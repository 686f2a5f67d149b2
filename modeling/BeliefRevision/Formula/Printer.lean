import BeliefRevision.Formula.Basic

/-!
# Printing formulas

The constants are written `1` and `0`, a negation as `not` before its operand, every other
connective between its operands. An operand stands in parentheses exactly when it has more than one
operand itself.
-/

namespace BeliefRevision.Formula

/-- Puts the text of an operand in parentheses if the operand needs them. -/
def enclose (p : Formula) (text : String) : String :=
  if 1 < p.operands.length then "(" ++ text ++ ")" else text

mutual

/-- The text of a formula. -/
def text : Formula → String
  | var v => v
  | top => "1"
  | bot => "0"
  | not p => Connective.negation.keyword ++ " " ++ enclose p (text p)
  | join j ps => (" " ++ j.keyword ++ " ").intercalate (operandTexts ps)
  | binary b p q => enclose p (text p) ++ " " ++ b.keyword ++ " " ++ enclose q (text q)

/-- The texts of the operands of a connective. -/
def operandTexts : List Formula → List String
  | [] => []
  | p :: ps => enclose p (text p) :: operandTexts ps

end

instance : ToString Formula := ⟨text⟩

end BeliefRevision.Formula
