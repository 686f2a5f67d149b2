import Std.Data.ExtTreeSet

/-!
# Variables

A propositional variable is its name, which may be any text. Variables are ordered by name,
character by character. A vocabulary is a finite set of variables, listed in that order. A list of
variables may have any order and repetitions; `arrange` puts it in order and drops the latter.
-/

namespace BeliefRevision

/-- A propositional variable, given by its name. -/
abbrev Variable := String

/-- A finite set of variables. -/
abbrev Vocabulary := Std.ExtTreeSet Variable

/-- The listed variables in order, each once. -/
def Variable.arrange (vs : List Variable) : List Variable :=
  (vs.mergeSort fun v w => (compare v w).isLE).eraseReps

end BeliefRevision
