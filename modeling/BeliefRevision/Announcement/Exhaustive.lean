import BeliefRevision.Announcement.Candidate

/-!
# Trying all announcements

Up to equivalence, a sentence over given variables is settled by the assignments to them that make
it true. Trying the disjunctions of all sets of such assignments, smallest sets first, thus tries
every announcement. There are `2 ^ 2 ^ n` candidates for `n` variables.
-/

namespace BeliefRevision.Announcement

/-- The ways to choose `n` elements of a list, which stay in their order. Choices with an earlier
first element come first, and so on. -/
def choose {α : Type} : Nat → List α → List (List α)
  | 0, _ => [[]]
  | _ + 1, [] => []
  | n + 1, a :: as => (choose n as).map (a :: ·) ++ choose (n + 1) as

/-- The assignments to the variables of all agents, as conjunctions of literals. -/
def terms (agents : List Agent) : List Formula :=
  (Assignment.onVocabulary (Agent.jointVocabulary agents)).map Assignment.toFormula

/-- The disjunctions of `n` terms. -/
def candidates (agents : List Agent) (n : Nat) : List Formula :=
  (choose n (terms agents)).map Formula.disjunction

/-- The numbers of terms that a candidate can have. -/
def sizes (agents : List Agent) : List Nat := List.range ((terms agents).length + 1)

/-- The first candidate that solves all agents. -/
def byExhaustion (agents : List Agent) : Search (Option Formula) :=
  if agents.isEmpty then pure (some .top)
  else (sizes agents).findSomeM? fun n => firstSolution .enumerating agents (candidates agents n)

/-- All candidates that solve all agents. -/
def allSolutions (agents : List Agent) : Search (List Formula) := do
  let found ← (sizes agents).mapM fun n => solutions .enumerating agents (candidates agents n)
  pure found.flatten

end BeliefRevision.Announcement
