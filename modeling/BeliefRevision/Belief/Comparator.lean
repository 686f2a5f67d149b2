import BeliefRevision.Belief.Metric
import BeliefRevision.Signal.Basic

/-!
# Comparators

A preference says for every belief state which assignments lie closer to it, either by a metric or
by a comparison of any kind. Applied to a belief state it gives a comparator.

A comparator by distance remembers each distance that it has computed, so that its metric is applied
once to every assignment it is asked about. Comparators may carry an alarm, which can ring whenever
the metric, or else the comparison, is applied; the alarm never changes what is answered.
-/

namespace BeliefRevision

/-- What rings at the application of the given number, counted from one. -/
abbrev Alarm := Nat → Bool

/-- The alarm that never rings. -/
def Alarm.never : Alarm := fun _ => false

/-- The alarm that rings at the application of number `n` alone. -/
def Alarm.at (n : Nat) : Alarm := fun i => i == n

/-- A comparator by distance from a belief state. -/
structure DistanceComparator where
  /-- The belief state. -/
  belief : Belief
  /-- The models of the belief state. -/
  models : List Assignment
  /-- The metric in use. -/
  metric : Metric
  /-- The alarm that listens to applications of the metric. -/
  alarm : Alarm := .never
  /-- The distances computed so far. -/
  known : Std.ExtTreeMap Assignment Nat := ∅
  /-- How often the metric was applied. -/
  applications : Nat := 0

namespace DistanceComparator

/-- The comparator for a belief state. -/
def new (k : Belief) (metric : Metric) (alarm : Alarm := .never) : DistanceComparator :=
  { belief := k, models := k.formula.models, metric, alarm }

/-- The distance that the metric gives. -/
def trueDistance (c : DistanceComparator) (a : Assignment) : Nat :=
  c.metric.distance c.belief c.models a

/-- The distance of an assignment, remembered or computed, and the comparator that remembers it. -/
def distance (c : DistanceComparator) (a : Assignment) : Watched (Nat × DistanceComparator) :=
  match c.known[a]? with
  | some d => pure (d, c)
  | none => do
    let applications := c.applications + 1
    Signal.alarm (c.alarm applications)
    let d := c.trueDistance a
    pure (d, { c with known := c.known.insert a d, applications })

/-- Compares two assignments by distance, asking for that of the first one first. -/
def compare (c : DistanceComparator) (a b : Assignment) : Watched (Ordering × DistanceComparator) :=
  do
  let (x, c) ← c.distance a
  let (y, c) ← c.distance b
  pure (Ord.compare x y, c)

end DistanceComparator

/-- A comparator by a comparison of any kind. -/
structure OrderComparator where
  /-- The comparison. -/
  order : Assignment → Assignment → Ordering
  /-- The alarm that listens to applications of the comparison. -/
  alarm : Alarm := .never
  /-- How often the comparison was applied. -/
  applications : Nat := 0

/-- Compares two assignments. -/
def OrderComparator.compare (c : OrderComparator) (a b : Assignment) :
    Watched (Ordering × OrderComparator) := do
  let applications := c.applications + 1
  Signal.alarm (c.alarm applications)
  pure (c.order a b, { c with applications })

/-- A comparator of assignments. -/
inductive Comparator where
  /-- A comparator by distance. -/
  | byDistance (c : DistanceComparator)
  /-- A comparator by another comparison. -/
  | byOrder (c : OrderComparator)

namespace Comparator

/-- Compares two assignments; less is closer. -/
def compare (a b : Assignment) : Comparator → Watched (Ordering × Comparator)
  | byDistance c => do
    let (o, c) ← c.compare a b
    pure (o, byDistance c)
  | byOrder c => do
    let (o, c) ← c.compare a b
    pure (o, byOrder c)

/-- The comparator as one by distance, if it is one. -/
def distance? : Comparator → Option DistanceComparator
  | byDistance c => some c
  | byOrder _ => none

end Comparator

/-- How closeness to a belief state is judged. -/
inductive Closeness where
  /-- By the distance that a metric gives. -/
  | distance (metric : Metric)
  /-- By a comparison that may depend on the belief state. -/
  | order (compare : Belief → Assignment → Assignment → Ordering)

/-- A way to judge closeness, with the alarm that its comparators carry. -/
structure Preference where
  /-- How closeness is judged. -/
  closeness : Closeness
  /-- The alarm of each comparator. -/
  alarm : Alarm := .never

namespace Preference

/-- The comparator for a belief state. -/
def comparator (p : Preference) (k : Belief) : Comparator :=
  match p.closeness with
  | .distance metric => .byDistance (.new k metric p.alarm)
  | .order compare => .byOrder { order := compare k, alarm := p.alarm }

/-- Closeness by Hamming distance. -/
def hamming : Preference := ⟨.distance .hamming, .never⟩

/-- Closeness by weighted distance. -/
def weighted (w : Weights) : Preference := ⟨.distance (.weighted w), .never⟩

/-- Closeness by layers. -/
def layered (layers : List Formula) : Preference := ⟨.distance (.layered layers), .never⟩

/-- Closeness by the number of variables that are true, whatever is believed. -/
def fewestTrue : Preference :=
  let count (a : Assignment) : Nat := (a.toList.filter Prod.snd).length
  ⟨.order fun _ a b => Ord.compare (count a) (count b), .never⟩

/-- Closeness by Hamming distance, through comparators that keep their distances to themselves. -/
def hammingOrder (alarm : Alarm) : Preference :=
  let order (k : Belief) : Assignment → Assignment → Ordering :=
    let models := k.formula.models
    fun a b => Ord.compare (Metric.hamming.distance k models a) (Metric.hamming.distance k models b)
  ⟨.order order, alarm⟩

end Preference

end BeliefRevision
