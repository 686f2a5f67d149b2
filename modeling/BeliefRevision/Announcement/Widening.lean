import BeliefRevision.Announcement.Classes
import BeliefRevision.Announcement.Candidate

/-!
# Announcing what the agents need to hear

A widening search builds the announcement from assignments that meet some goal. For each agent they
are split into classes, those closest to the agent's beliefs first. The search goes in rounds. In
each round every agent that is not yet solved takes in its next class: assignments that meet its
goal are accepted, the others rejected. The announcement of the round says that some accepted
assignment holds and no rejected one, and is then tried on all agents. The search gives up when an
unsolved agent has no class left to take in.

`Pursuit.run` ends because each round takes at least one class from those that remain.
-/

namespace BeliefRevision

/-- What has been found out about assignments so far. -/
structure Verdicts where
  /-- The assignments that met the goal of an agent that took them in. -/
  accepted : Std.ExtTreeSet Assignment := ∅
  /-- The assignments that missed the goal of an agent that took them in. -/
  rejected : Std.ExtTreeSet Assignment := ∅

namespace Verdicts

/-- Takes in a class for an agent with the given goal. -/
def judge (v : Verdicts) (goal : Formula) : List Assignment → Except Error Verdicts
  | [] => .ok v
  | a :: as => do
    if ← goal.evaluate a then judge { v with accepted := v.accepted.insert a } goal as
    else judge { v with rejected := v.rejected.insert a } goal as

/-- The sentence that some accepted assignment holds, and no rejected one. -/
def announcement (v : Verdicts) : Formula :=
  let accepted := Formula.ofAssignments v.accepted.toList
  if v.rejected.isEmpty then accepted
  else accepted.and (.not (Formula.ofAssignments v.rejected.toList))

end Verdicts

/-- An agent in a widening search. -/
structure Prospect where
  /-- The agent. -/
  agent : Agent
  /-- The classes that it has not taken in, closest first. -/
  classes : List (List Assignment)
  /-- Whether the current announcement solves it. -/
  solved : Bool := false

namespace Prospect

/-- The number of classes that have not been taken in. -/
def remaining : List Prospect → Nat
  | [] => 0
  | p :: ps => p.classes.length + remaining ps

/-- Lets every unsolved agent take in its next class, unless one of them has none left. -/
def widen (v : Verdicts) : List Prospect → Except Error (Option (Verdicts × List Prospect))
  | [] => .ok (some (v, []))
  | p :: ps =>
    if p.solved then do
      let widened ← widen v ps
      .ok (widened.map fun (v, ps) => (v, p :: ps))
    else
      match p.classes with
      | [] => .ok none
      | next :: classes => do
        let v ← v.judge p.agent.goal next
        let widened ← widen v ps
        .ok (widened.map fun (v, ps) => (v, { p with classes } :: ps))

/-- Notes for each agent whether the announcement solves it. -/
def mark (ps : List Prospect) (solved : List Bool) : List Prospect :=
  ps.zipWith (fun p solved => { p with solved }) solved

theorem remaining_mark_le (ps : List Prospect) (solved : List Bool) :
    remaining (mark ps solved) ≤ remaining ps := by
  induction ps generalizing solved with
  | nil => exact Nat.le_refl _
  | cons p ps ih =>
    cases solved with
    | nil => exact Nat.zero_le _
    | cons b solved => exact Nat.add_le_add_left (ih solved) _

/-- Every class that an agent takes in is one less to come. -/
theorem remaining_of_widen {v v' : Verdicts} {ps ps' : List Prospect}
    (h : widen v ps = .ok (some (v', ps'))) :
    remaining ps' + (ps.countP fun p => !p.solved) = remaining ps := by
  induction ps generalizing v v' ps' with
  | nil =>
    cases h
    rfl
  | cons p ps ih =>
    rw [widen] at h
    split at h
    next solved =>
      rcases hw : widen v ps with e | _ | ⟨w, qs⟩ <;>
        simp [hw, bind, Except.bind] at h
      obtain ⟨rfl, rfl⟩ := h
      simpa [remaining, solved, Nat.add_assoc] using ih hw
    next unsolved =>
      split at h
      · cases h
      next next classes hc =>
        rcases hj : v.judge p.agent.goal next with e | u <;> simp [hj, bind, Except.bind] at h
        rcases hw : widen u ps with e | _ | ⟨w, qs⟩ <;> simp [hw] at h
        obtain ⟨rfl, rfl⟩ := h
        have := ih hw
        simp [remaining, unsolved, hc]
        omega

end Prospect

/-- A widening search between two rounds. -/
structure Pursuit where
  /-- The current announcement. -/
  announcement : Formula := .top
  /-- What has been found out so far. -/
  verdicts : Verdicts := {}
  /-- The agents. -/
  prospects : List Prospect

namespace Pursuit

/-- The search before its first round, with the classes of each agent. -/
def start (agents : List Agent) (classes : List (List (List Assignment))) : Pursuit :=
  { prospects := agents.zipWith (fun agent classes => { agent, classes }) classes }

/-- Whether the current announcement is known to solve all agents. -/
def isDone (s : Pursuit) : Bool := s.prospects.all Prospect.solved

/-- The search after the next round, unless an agent has nothing left to take in. The agents still
have to be marked. -/
def round (s : Pursuit) : Except Error (Option Pursuit) := do
  let widened ← Prospect.widen s.verdicts s.prospects
  .ok (widened.map fun (v, ps) => ⟨v.announcement, v, ps⟩)

/-- Tells for each agent whether the current announcement solves it. -/
def recheck (s : Pursuit) : Search (List Bool) :=
  s.prospects.mapM fun p => (p.agent.test s.announcement).during .roundCheck

/-- Notes for each agent whether the current announcement solves it. -/
def mark (s : Pursuit) (solved : List Bool) : Pursuit :=
  { s with prospects := Prospect.mark s.prospects solved }

/-- The number of classes that have not been taken in. -/
def remaining (s : Pursuit) : Nat := Prospect.remaining s.prospects

/-- A round that takes place leaves fewer classes. -/
theorem remaining_mark_lt {s s' : Pursuit} (solved : List Bool) (unsolved : ¬s.isDone)
    (h : s.round = .ok (some s')) : (s'.mark solved).remaining < s.remaining := by
  rcases hw : Prospect.widen s.verdicts s.prospects with e | _ | ⟨v, ps⟩ <;>
    simp [round, hw, bind, Except.bind] at h
  subst h
  have pos : 0 < s.prospects.countP fun p => !p.solved := by
    simpa [isDone, List.countP_pos_iff] using unsolved
  have := Prospect.remaining_of_widen hw
  have := Prospect.remaining_mark_le ps solved
  simp only [remaining, mark]
  omega

/-- Goes on until the announcement solves all agents or nothing is left to take in. -/
def run (s : Pursuit) : Search (Option Formula) :=
  if _hs : s.isDone then pure (some s.announcement)
  else do
    Signal.check.during .widening
    match _h : s.round with
    | .error e => throw e
    | .ok none => pure none
    | .ok (some s) =>
      let solved ← s.recheck
      run (s.mark solved)
termination_by s.remaining
decreasing_by exact remaining_mark_lt solved _hs _h

end Pursuit

namespace Announcement

/-- The assignments to the variables of all agents that meet the goal of some agent. -/
def goalModels (agents : List Agent) : Search (List Assignment) := do
  let p := (Formula.disjunction (agents.map Agent.goal)).and
    (Formula.closure (Agent.jointVocabulary agents).toList)
  let (as, stopped) ← (p.enumerate.collect : Watched _)
  if stopped then throw (.during .goalModels .cancelled)
  pure as

/-- The comparators of all agents. -/
def comparators (search : Widening) (agents : List Agent) : Except Error (List Comparator) :=
  agents.zipIdx.mapM fun (agent, i) =>
    match agent.revision.comparator? agent.initial with
    | some c => .ok c
    | none => .error (.noComparator search i)

/-- The comparators of all agents, which must be by distance. -/
def distanceComparators (agents : List Agent) : Except Error (List DistanceComparator) := do
  let cs ← comparators .byDistance agents
  cs.zipIdx.mapM fun (c, i) =>
    match c.distance? with
    | some c => .ok c
    | none => .error (.noDistance i)

/-- The classes of each agent. -/
def classes (agents : List Agent) : Widening → Search (List (List (List Assignment)))
  | .byDistance => do
    let cs ← distanceComparators agents
    let as ← goalModels agents
    cs.mapM fun c => c.classes as
  | .byOrder => do
    let cs ← comparators .byOrder agents
    let as ← goalModels agents
    cs.mapM fun c => c.classes as

/-- Widens the classes of the agents until the announcement solves them all. -/
def byWidening (search : Widening) (agents : List Agent) : Search (Option Formula) := do
  let classes ← classes agents search
  (Pursuit.start agents classes).run

end Announcement

end BeliefRevision
