import BeliefRevision.Error

/-!
# Signals to stop

Long searches look at a signal from time to time and give up once it is raised. A signal is never
lowered again. Besides its present state, `Signal` holds what will raise it during a run: somebody
elsewhere, seen at some reading; whoever counts the revisions asked for; or, if the signal is shared
with them, the alarms of comparators. The silent signal is reached by none of these, and nothing
raises it.

`Watched` computations carry a signal along, and `Search` computations can also fail, in particular
by `Error.cancelled` where they find the signal raised.
-/

namespace BeliefRevision

/-- A signal to stop, with all that may raise it. -/
structure Signal where
  /-- Whether the signal is raised. -/
  raised : Bool := false
  /-- How often the signal was looked at. -/
  readings : Nat := 0
  /-- How many revisions were asked for. -/
  revisions : Nat := 0
  /-- Whether somebody elsewhere has raised the signal by the reading of this number. -/
  atReading : Nat → Bool := fun _ => false
  /-- Whether asking for the revision of this number, counted from one, raises the signal. -/
  atRevision : Nat → Bool := fun _ => false
  /-- Whether alarms reach the signal. -/
  shared : Bool := true

/-- A computation that carries a signal along. -/
abbrev Watched := StateM Signal

/-- A computation that carries a signal along and may fail. -/
abbrev Search := ExceptT Error Watched

namespace Signal

/-- The signal that nothing raises. -/
def silent : Signal := { shared := false }

/-- Raises the signal. -/
def raise (s : Signal) : Signal := { s with raised := true }

/-- Looks at the signal. -/
def read : Watched Bool :=
  modifyGet fun s =>
    let raised := s.raised || s.atReading s.readings
    (raised, { s with raised, readings := s.readings + 1 })

/-- Looks at the signal if it is to be heeded at all. -/
def readIf (heed : Bool) : Watched Bool := if heed then read else pure false

/-- Counts a revision that is asked for, which may raise the signal. -/
def countRevision : Watched Unit :=
  modify fun s =>
    let revisions := s.revisions + 1
    { s with revisions, raised := s.raised || s.atRevision revisions }

/-- Passes on an alarm, which raises the signal if it rings and the signal is shared. -/
def alarm (rings : Bool) : Watched Unit :=
  modify fun s => if rings && s.shared then s.raise else s

/-- Gives up if the signal is raised. -/
def check : Search Unit := do
  if ← (read : Watched Bool) then throw .cancelled

/-- The outcome of a watched computation under the silent signal. -/
def unwatched {α : Type} (x : Watched α) : α := (x.run silent).1

end Signal

/-- Notes on every failure of a search that it came up during the given stage. -/
def Search.during {α : Type} (stage : Stage) (x : Search α) : Search α :=
  ExceptT.adapt (Error.during stage) x

end BeliefRevision
