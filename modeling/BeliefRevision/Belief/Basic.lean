import BeliefRevision.Assignment.Basic

/-!
# Belief states

A belief state is a finite set of formulas, listed in their order. It stands for the conjunction of
its members, except that the empty belief state stands for falsehood.
-/

namespace BeliefRevision

/-- A finite set of formulas that are believed. -/
abbrev Belief := Std.ExtTreeSet Formula

namespace Belief

/-- The conjunction of the members of a belief state; false if it has none. -/
def formula (k : Belief) : Formula := (Formula.conjunction? k.toList).getD .bot

/-- The variables of the members, member by member. -/
def occurrences (k : Belief) : List Variable := k.toList.flatMap fun p => p.vocabulary.toList

end Belief

end BeliefRevision
