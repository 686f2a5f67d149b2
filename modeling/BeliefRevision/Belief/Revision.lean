import BeliefRevision.Belief.Comparator
import BeliefRevision.Belief.Trust
import BeliefRevision.Model.Watched

/-!
# Belief revision

A revision says how a belief state changes when a sentence is announced.

* By consistency: the sentence is kept, and every belief that can be true together with it.
* By nearness: only the models of the sentence closest to the belief state remain possible, among
  the assignments to all variables involved.
* Behind trust: the sentence is first cut down to what is understood of it.

`Revision.apply` revises a belief state. It pays no attention to the signal, though comparators may
raise it; `Revision.attempt` gives up where it finds the signal raised. `Revision.revise` is the
outcome of the former.
-/

namespace BeliefRevision

/-- Keeps those of the assignments seen so far to which none is closer; the first of them stands
for all. -/
def Comparator.keepNearest (kept : List Assignment) (c : Comparator) (a : Assignment) :
    Watched (List Assignment × Comparator) :=
  match kept with
  | [] => pure ([a], c)
  | best :: ties => do
    let (o, c) ← c.compare a best
    match o with
    | .lt => pure ([a], c)
    | .eq => pure (best :: ties ++ [a], c)
    | .gt => pure (best :: ties, c)

/-- A way to revise belief states. -/
inductive Revision where
  /-- Beliefs that cannot be true together with the sentence are dropped. -/
  | consistency
  /-- The models of the sentence that are closest to the belief state remain. -/
  | nearest (preference : Preference)
  /-- The sentence is understood as trust allows, then the inner revision follows. -/
  | trusting (trust : Trust) (inner : Revision)

namespace Revision

/-- The members of the belief state, and the sentence, that can be true together with the
sentence. -/
def consistent (k : Belief) (s : Formula) : Belief :=
  (k.insert s).filter fun p => (p.and s).isSatisfiable

/-- The sentence, put so that it mentions all variables of the belief state as well. -/
def completed (k : Belief) (s : Formula) : Formula :=
  s.and (Formula.closure (k.occurrences ++ s.vocabulary.toList))

/-- The models of the sentence closest to the belief state, over all variables involved, and
whether the search for them was stopped by the signal. -/
def nearestModels (p : Preference) (heed : Bool) (k : Belief) (s : Formula) :
    Watched (List Assignment × Bool) := do
  let ((kept, _), stopped) ← (completed k s).enumerate.consume heed
    (fun (kept, c) a => c.keepNearest kept a) ([], p.comparator k)
  pure (kept, stopped)

/-- The belief state in which exactly the listed assignments are possible. -/
def believing (as : List Assignment) : Belief := {Formula.ofAssignments as}

/-- Revises a belief state by a sentence. -/
def apply : Revision → Belief → Formula → Watched Belief
  | consistency, k, s => pure (consistent k s)
  | nearest p, k, s => do
    let (as, _) ← nearestModels p false k s
    pure (believing as)
  | trusting t inner, k, s => inner.apply k (t.understand s)

/-- Revises a belief state by a sentence, unless the signal is found raised. -/
def attempt : Revision → Belief → Formula → Search Belief
  | consistency, k, s => do
    Signal.check
    pure (consistent k s)
  | nearest p, k, s => do
    let (as, stopped) ← (nearestModels p true k s : Watched _)
    if stopped then throw (.during .nearestModels .cancelled)
    pure (believing as)
  | trusting t inner, k, s => inner.attempt k (t.understand s)

/-- The belief state revised by a sentence. -/
def revise (r : Revision) (k : Belief) (s : Formula) : Belief := Signal.unwatched (r.apply k s)

/-- The comparator by which assignments are judged for a belief state, if the revision goes by
nearness. -/
def comparator? : Revision → Belief → Option Comparator
  | nearest p, k => some (p.comparator k)
  | _, _ => none

end Revision

end BeliefRevision
