import BeliefRevision.Belief.Revision

/-!
# Agents with goals

An agent holds a belief state, revises it in its own way and should be brought to a goal. A sentence
solves the agent if the revised belief state is satisfiable and entails the goal; an agent whose
goal is unsatisfiable is solved by what makes its beliefs unsatisfiable.
-/

namespace BeliefRevision

/-- Somebody whose beliefs are to be changed. -/
structure Agent where
  /-- The beliefs before any announcement. -/
  initial : Belief
  /-- What the agent should come to believe. -/
  goal : Formula
  /-- How the agent revises its beliefs. -/
  revision : Revision

namespace Agent

/-- The variables of the beliefs and of the goal. -/
def vocabulary (agent : Agent) : Vocabulary :=
  .ofList (agent.initial.occurrences ++ agent.goal.occurrences)

/-- The beliefs after the announcement of a sentence. -/
def hear (agent : Agent) (s : Formula) : Belief := agent.revision.revise agent.initial s

/-- Whether a belief state is where the agent should get. -/
def isReachedBy (agent : Agent) (k : Belief) : Bool :=
  if agent.goal.isSatisfiable then k.formula.isSatisfiable && k.formula.entails agent.goal
  else k.formula.isContradiction

/-- Whether the announcement of a sentence brings the agent to its goal. -/
def isSolvedBy (agent : Agent) (s : Formula) : Bool := agent.isReachedBy (agent.hear s)

/-- Tells whether the announcement of a sentence brings the agent to its goal, unless the signal is
found raised. -/
def test (agent : Agent) (s : Formula) : Search Bool := do
  Signal.countRevision
  let k ← agent.revision.attempt agent.initial s
  pure (agent.isReachedBy k)

/-- The variables of all agents. -/
def jointVocabulary (agents : List Agent) : Vocabulary :=
  .ofList (agents.flatMap fun agent => agent.vocabulary.toList)

end Agent

end BeliefRevision
