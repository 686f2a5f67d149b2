/-!
# Boards of signals

A board keeps several handles on signals. Handles made by sharing stand for the same signal, so that
raising it by one of them is seen through all.
-/

namespace BeliefRevision

/-- Numbered handles on signals. -/
structure SignalBoard where
  /-- The signal that each handle stands for. -/
  handles : List Nat := [0]
  /-- The number of signals made so far. -/
  signals : Nat := 1
  /-- The signals that are raised. -/
  raised : List Nat := []

namespace SignalBoard

/-- Adds a handle on a new signal; the result starts with the number of the handle. -/
def fresh (b : SignalBoard) : Nat × SignalBoard :=
  (b.handles.length, { b with handles := b.handles ++ [b.signals], signals := b.signals + 1 })

/-- Adds a handle on the signal of the given handle, if there is such a handle. -/
def share? (b : SignalBoard) (i : Nat) : Option (Nat × SignalBoard) :=
  b.handles[i]?.map fun s => (b.handles.length, { b with handles := b.handles ++ [s] })

/-- Raises the signal of the given handle, if there is such a handle. -/
def raise? (b : SignalBoard) (i : Nat) : Option SignalBoard :=
  b.handles[i]?.map fun s => { b with raised := s :: b.raised }

/-- Whether the signal of the given handle is raised, if there is such a handle. -/
def isRaised? (b : SignalBoard) (i : Nat) : Option Bool :=
  b.handles[i]?.map fun s => s ∈ b.raised

/-- For each handle whether its signal is raised. -/
def states (b : SignalBoard) : List Bool := b.handles.map fun s => s ∈ b.raised

end SignalBoard

end BeliefRevision
