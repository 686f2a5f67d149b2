import BeliefRevision.Formula.Connective
import BeliefRevision.Variable

/-!
# What can go wrong

`Error` lists the causes of failure, together with the stages of a search that a failure passed
through. `Error.message` is the one place where they are worded.
-/

namespace BeliefRevision

/-- The two searches that widen classes of assignments around the agents' beliefs. -/
inductive Widening where
  /-- Classes by distance. -/
  | byDistance
  /-- Classes by any comparison. -/
  | byOrder
deriving DecidableEq, Repr

/-- The name that a widening search goes by in messages. -/
def Widening.name : Widening → String
  | byDistance => "by-distance"
  | byOrder => "ordered"

/-- The part of a search that was under way. -/
inductive Stage where
  /-- Looking for the assignments nearest to a belief. -/
  | nearestModels
  /-- Listing the assignments that meet some goal. -/
  | goalModels
  /-- Between two rounds of a widening search. -/
  | widening
  /-- Testing the announcement of a round. -/
  | roundCheck
  /-- Testing a candidate announcement. -/
  | candidateCheck
  /-- Between two refinements of the base announcement. -/
  | refining
  /-- Between two candidates of the exhaustive search. -/
  | enumerating
deriving DecidableEq, Repr

/-- The wording of a stage. -/
def Stage.text : Stage → String
  | nearestModels => "while computing the nearest models of the sentence"
  | goalModels => "while computing the models of the target belief states"
  | widening => "while searching for an announcement"
  | roundCheck => "while checking the current announcement"
  | candidateCheck => "while checking a candidate announcement"
  | refining => "while refining the base announcement"
  | enumerating => "while enumerating brute force announcements"

/-- A failure. -/
inductive Error where
  /-- A junction was given no operand. -/
  | noOperand (j : Junction)
  /-- A connective of fixed arity was given another number of operands. -/
  | operandCount (c : Connective) (found : Nat)
  /-- Trust was declared with no region at all. -/
  | noRegion
  /-- A widening search met an agent whose revision does not compare assignments. -/
  | noComparator (search : Widening) (agent : Nat)
  /-- The search by distance met an agent whose comparator has no distance. -/
  | noDistance (agent : Nat)
  /-- A formula was evaluated where this variable has no value. -/
  | unassigned (v : Variable)
  /-- A search was told to stop. -/
  | cancelled
  /-- A failure during a stage of a search. -/
  | during (stage : Stage) (e : Error)
deriving DecidableEq, Repr

namespace Error

/-- The cause, without the stages it passed through. -/
def cause : Error → Error
  | during _ e => e.cause
  | e => e

/-- The wording of a failure, the outermost stage first. -/
def message : Error → String
  | noOperand j => s!"construction error: operator \"{j.keyword}\" requires at least one operand"
  | operandCount c found =>
    s!"construction error: operator \"{c.keyword}\" requires {c.arity.getD 0} operand(s)," ++
      s!" got {found}"
  | noRegion => "construction error: must define at least one partition"
  | noComparator search agent =>
    s!"configuration error: {search.name} resolution requires comparator-based belief revision" ++
      s!" strategies (problem instance {agent} has none)"
  | noDistance agent =>
    "configuration error: by-distance resolution requires distance-based comparators" ++
      s!" (problem instance {agent} has another kind)"
  | unassigned v => s!"no value assigned to variable \"{v}\""
  | cancelled => "search cancelled"
  | during stage e => s!"{stage.text}: {e.message}"

end Error

end BeliefRevision
