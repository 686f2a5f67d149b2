import BeliefRevision.Announcement.Exhaustive
import BeliefRevision.Announcement.Refinement
import BeliefRevision.Announcement.Widening

/-!
# Strategies

The ways to look for one announcement that brings every agent to its goal. A search ends with the
announcement, or with none if the strategy finds none, or gives up because of the signal; a widening
search fails if the agents do not revise by nearness. `Strategy.resolve` searches in silence.
-/

namespace BeliefRevision

/-- A way to look for an announcement. -/
inductive Strategy where
  /-- The disjunction of the goals, or a refinement of it. -/
  | refinement
  /-- Every announcement over the variables of the agents, up to equivalence. -/
  | exhaustion
  /-- Assignments that meet the goals, widening around the agents' beliefs. -/
  | widening (search : Widening)
deriving DecidableEq, Repr

namespace Strategy

/-- Looks for an announcement that solves all agents, unless the signal is found raised. -/
def search : Strategy → List Agent → Search (Option Formula)
  | refinement => Announcement.byRefinement
  | exhaustion => Announcement.byExhaustion
  | widening w => Announcement.byWidening w

/-- The announcement found for the agents, if any. -/
def resolve (strategy : Strategy) (agents : List Agent) : Except Error (Option Formula) :=
  Signal.unwatched (strategy.search agents)

end Strategy

end BeliefRevision
