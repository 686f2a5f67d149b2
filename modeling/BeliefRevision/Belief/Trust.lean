import BeliefRevision.Model.Query

/-!
# Trust

A listener need not take a sentence at its word. Trust divides what may be the case into regions,
and a sentence is understood only as far as the regions go: as the disjunction of those in which it
can be true. What no declared region covers is one region more. With complete trust the sentence
itself is the only region, and with no trust everything is one region.
-/

namespace BeliefRevision

/-- How far a listener takes sentences at their word. -/
inductive Trust where
  /-- Sentences are taken as they are. -/
  | complete
  /-- Sentences are told apart by the regions they touch; at least one region is declared. -/
  | regions (declared : List Formula) (nonempty : declared ≠ [])

namespace Trust

/-- Trust with the given regions, of which there must be one. -/
def ofRegions (declared : List Formula) : Except Error Trust :=
  if h : declared = [] then .error .noRegion else .ok (.regions declared h)

/-- Trust with a single region, to which everything belongs. -/
def none : Trust := .regions [.top] (List.cons_ne_nil _ _)

/-- The declared regions, unless trust is complete. -/
def declared? : Trust → Option (List Formula)
  | complete => .none
  | regions declared _ => some declared

/-- The region of what lies in no declared region. -/
def uncovered (declared : List Formula) : Formula := .not (Formula.disjunction declared)

/-- The disjunction of the regions, the uncovered one last, in which a sentence can be true; false
if there is none. -/
def restrict (declared : List Formula) (s : Formula) : Formula :=
  Formula.disjunction
    ((declared ++ [uncovered declared]).filter fun region => (s.and region).isSatisfiable)

/-- The sentence as it is understood. -/
def understand : Trust → Formula → Formula
  | complete, s => restrict [s] s
  | regions declared _, s => restrict declared s

end Trust

end BeliefRevision
