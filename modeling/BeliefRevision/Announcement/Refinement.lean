import BeliefRevision.Announcement.Candidate

/-!
# Announcing the goals

The plainest announcement is the disjunction of the agents' goals, without those that say nothing
beside another one. If it does not solve all agents, its refinements are tried: its conjunctions
with each assignment to the variables that it does not mention.
-/

namespace BeliefRevision.Announcement

/-- The goals of the agents, each listed once. -/
def goals (agents : List Agent) : List Formula := (agents.map Agent.goal).eraseDups

/-- The goals that no other goal satisfies; all of them if there is no such goal. -/
def independentGoals (agents : List Agent) : List Formula :=
  let all := goals agents
  let kept := all.filter fun g => all.all fun other => other == g || !g.isSatisfiedBy other
  if kept.isEmpty then all else kept

/-- The disjunction of the independent goals. -/
def base (agents : List Agent) : Formula := Formula.disjunction (independentGoals agents)

/-- The variables of the agents that a sentence does not mention. -/
def unmentioned (agents : List Agent) (s : Formula) : Vocabulary :=
  (Agent.jointVocabulary agents).filter fun v => !s.vocabulary.contains v

/-- The sentence made more definite by an assignment. -/
def refine (s : Formula) (a : Assignment) : Formula :=
  if a.isEmpty then s else s.and a.toFormula

/-- The refinements of the disjunction of the goals. -/
def refinements (agents : List Agent) : List Formula :=
  let s := base agents
  (Assignment.onVocabulary (unmentioned agents s)).map (refine s)

/-- The first refinement that solves all agents. -/
def byRefinement (agents : List Agent) : Search (Option Formula) :=
  if agents.isEmpty then pure (some .top) else firstSolution .refining agents (refinements agents)

end BeliefRevision.Announcement
