import BeliefRevision.Assignment.Basic

/-!
# Distances between assignments

Two assignments disagree on a variable if both give it a value and the values differ. Their Hamming
distance counts these variables, and the weighted distance adds up their weights, where a variable
without a weight weighs nothing. Weights are words of 64 bits, and so are their sums: a sum that
does not fit starts again from zero.
-/

namespace BeliefRevision

/-- Weights of variables. -/
abbrev Weights := Std.ExtTreeMap Variable UInt64

namespace Weights

/-- The weights that hold the listed entries, the last one for each variable. -/
def ofEntries (entries : List (Variable × UInt64)) : Weights :=
  entries.foldl (fun w (v, n) => w.insert v n) ∅

/-- The weight of a variable, `0` if it has none. -/
def weightOf (w : Weights) (v : Variable) : UInt64 := w[v]?.getD 0

end Weights

namespace Assignment

/-- The variables of the first assignment to which the second one gives the other value. -/
def differences (a b : Assignment) : List Variable :=
  (a.toList.filter fun (v, x) => b[v]? == some !x).map Prod.fst

/-- The variables to which both assignments give values, but different ones. The smaller one is gone
through, and its variables are looked up in the larger one. -/
def disagreements (a b : Assignment) : List Variable :=
  if a.size ≤ b.size then differences a b else differences b a

/-- The number of variables on which two assignments disagree. -/
def hamming (a b : Assignment) : Nat := (disagreements a b).length

/-- The total weight of the variables on which two assignments disagree, added up in words. -/
def weighted (w : Weights) (a b : Assignment) : Nat :=
  (((disagreements a b).map fun v => w.weightOf v).foldr (· + ·) 0).toNat

/-- Whether two assignments disagree nowhere. -/
def isConsistentWith (a b : Assignment) : Bool := (disagreements a b).isEmpty

end Assignment

end BeliefRevision
