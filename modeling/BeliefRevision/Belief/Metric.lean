import BeliefRevision.Assignment.Distance
import BeliefRevision.Belief.Basic
import BeliefRevision.Model.Query

/-!
# Metrics

A metric gives the distance of an assignment from a belief state, and may use the models of the
latter. Three metrics are defined here: the least Hamming distance from a model, the least weighted
distance, and the number of the first of several layers in which the assignment can hold.
-/

namespace BeliefRevision

/-- A distance of assignments from belief states, whose models are given. -/
structure Metric where
  /-- The distance of an assignment from a belief state with the given models. -/
  distance : Belief → List Assignment → Assignment → Nat

namespace Metric

/-- The least of the distances from the models; no model, no distance. -/
def nearest (d : Assignment → Nat) (models : List Assignment) : Nat := (models.map d).min?.getD 0

/-- The least Hamming distance from a model of the belief state. -/
def hamming : Metric where
  distance _ models a := nearest (fun m => m.hamming a) models

/-- The least weighted distance from a model of the belief state. -/
def weighted (w : Weights) : Metric where
  distance _ models a := nearest (fun m => m.weighted w a) models

/-- The number of the first formula with which the assignment is consistent. The belief state is
number `0`, the given layers follow, and what fits none comes last. -/
def layered (layers : List Formula) : Metric where
  distance k _ a := (k.formula :: layers).findIdx fun layer => (layer.and a.toFormula).isSatisfiable

end Metric

end BeliefRevision
