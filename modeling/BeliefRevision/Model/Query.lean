import BeliefRevision.Model.Enumeration

/-!
# Questions about models

Satisfiability, validity and entailment are answered by looking for one model of a suitable formula.
-/

namespace BeliefRevision.Formula

/-- Whether a formula has a model. -/
def isSatisfiable (p : Formula) : Bool := (p.enumerate.next false).1.isSome

/-- Whether a formula has no model. -/
def isContradiction (p : Formula) : Bool := !p.isSatisfiable

/-- Whether a formula is true under every assignment to its variables. -/
def isTautology (p : Formula) : Bool := (not p).isContradiction

/-- Whether the first formula is never true without the second. -/
def entails (p q : Formula) : Bool := (p.and (not q)).isContradiction

/-- Whether the models of the first formula are what the second one allows on its variables: the
second entails the first, and can be true together with each of its models. -/
def isSatisfiedBy (p q : Formula) : Bool :=
  q.entails p && p.models.all fun a => (a.toFormula.and q).isSatisfiable

end BeliefRevision.Formula
