import BeliefRevision.Belief.Comparator

/-!
# Classes of assignments

A comparator splits a list of assignments into classes, closest first, where the assignments of a
class are equally close and keep their order. A comparator by distance can do so by distances; any
comparator can by sorting.
-/

namespace BeliefRevision

/-- Assignments filed under their distances, in order of arrival. -/
abbrev Buckets := Std.ExtTreeMap Nat (List Assignment)

/-- Files an assignment under a distance. -/
def Buckets.file (buckets : Buckets) (d : Nat) (a : Assignment) : Buckets :=
  buckets.insert d (buckets.getD d [] ++ [a])

namespace DistanceComparator

/-- Files the listed assignments under their distances. -/
def fileAll (c : DistanceComparator) (buckets : Buckets) : List Assignment → Watched Buckets
  | [] => pure buckets
  | a :: as => do
    let (d, c) ← c.distance a
    c.fileAll (buckets.file d a) as

/-- The classes of equal distance, least distance first. -/
def classes (c : DistanceComparator) (as : List Assignment) : Watched (List (List Assignment)) := do
  let buckets ← c.fileAll ∅ as
  pure (buckets.toList.map Prod.snd)

end DistanceComparator

namespace Comparator

/-- Inserts an assignment into a list of others that has the farthest first. It comes after those
that are farther than it. -/
def insertFarthest (c : Comparator) (a : Assignment) :
    List Assignment → Watched (List Assignment × Comparator)
  | [] => pure ([a], c)
  | b :: bs => do
    let (o, c) ← c.compare a b
    if o = .lt then
      let (bs, c) ← c.insertFarthest a bs
      pure (b :: bs, c)
    else pure (a :: b :: bs, c)

/-- Sorts assignments into a list that has the farthest first, and of equals the last one. -/
def sortFarthest (c : Comparator) (sorted : List Assignment) :
    List Assignment → Watched (List Assignment × Comparator)
  | [] => pure (sorted, c)
  | a :: as => do
    let (sorted, c) ← c.insertFarthest a sorted
    c.sortFarthest sorted as

/-- Splits a list into classes of assignments that tie with the first of their class. The first
class so far consists of `head` and `ties`. -/
def groupTies (c : Comparator) (head : Assignment) (ties : List Assignment) :
    List Assignment → Watched (List (List Assignment))
  | [] => pure [head :: ties]
  | a :: as => do
    let (o, c) ← c.compare head a
    if o = .eq then c.groupTies head (ties ++ [a]) as
    else
      let classes ← c.groupTies a [] as
      pure ((head :: ties) :: classes)

/-- The classes of assignments that tie with each other, closest first. -/
def classes (c : Comparator) (as : List Assignment) : Watched (List (List Assignment)) := do
  let (sorted, c) ← c.sortFarthest [] as
  match sorted.reverse with
  | [] => pure []
  | a :: as => c.groupTies a [] as

end Comparator

end BeliefRevision
