import BeliefRevision.Announcement.Agent

/-!
# Candidate announcements

A candidate is tried on one agent after the other, and dropped at the first agent that it does not
solve. Before each candidate a search looks at the signal.
-/

namespace BeliefRevision.Announcement

/-- Tells whether the announcement of a sentence solves all agents. -/
def solvesAll (agents : List Agent) (s : Formula) : Search Bool :=
  agents.allM fun agent => (agent.test s).during .candidateCheck

/-- Looks at the signal, then tries a candidate. -/
def tryOut (stage : Stage) (agents : List Agent) (s : Formula) : Search Bool := do
  Signal.check.during stage
  solvesAll agents s

/-- The first of the candidates that solves all agents. -/
def firstSolution (stage : Stage) (agents : List Agent) (candidates : List Formula) :
    Search (Option Formula) :=
  candidates.findM? (tryOut stage agents)

/-- Those of the candidates that solve all agents. -/
def solutions (stage : Stage) (agents : List Agent) (candidates : List Formula) :
    Search (List Formula) :=
  candidates.filterM (tryOut stage agents)

end BeliefRevision.Announcement
