import BeliefRevision.Model.Enumeration
import BeliefRevision.Signal.Basic

/-!
# Enumerations under a signal

An enumeration may look at a signal before each step of the search, and stops if it finds the signal
raised. It can be asked for one model (`pull`) or run through to its end (`consume`). Whoever runs
it learns whether it was stopped, since the models seen so far are then not all there are.
-/

namespace BeliefRevision.Enumeration

/-- The next model, if there is one and the signal is not found raised before it is reached. -/
def pull (e : Enumeration) : Watched (Option Assignment × Enumeration) := do
  if ← Signal.read then pure (none, { e with front := [], stopped := true })
  else
    match _h : e.front.step e.formula.promise e.formula with
    | none => pure (none, { e with front := [] })
    | some (none, front) => pull { e with front }
    | some (some a, front) => pure (some a, { e with front })
termination_by e.size
decreasing_by exact Frontier.size_step_lt _h

/-- Runs through the remaining models with a step for each; the result also tells whether the
enumeration was stopped by the signal, which it looks at only if it is to heed it. -/
def consume {σ : Type} (heed : Bool) (step : σ → Assignment → Watched σ) (s : σ)
    (e : Enumeration) : Watched (σ × Bool) := do
  if ← Signal.readIf heed then pure (s, true)
  else
    match _h : e.front.step e.formula.promise e.formula with
    | none => pure (s, e.stopped)
    | some (none, front) => consume heed step s { e with front }
    | some (some a, front) =>
      let s ← step s a
      consume heed step s { e with front }
termination_by e.size
decreasing_by all_goals exact Frontier.size_step_lt _h

/-- The remaining models, in order, and whether the enumeration was stopped by the signal. -/
def collect (e : Enumeration) : Watched (List Assignment × Bool) := do
  let (as, stopped) ← e.consume true (fun as a => pure (a :: as)) []
  pure (as.reverse, stopped)

end BeliefRevision.Enumeration
