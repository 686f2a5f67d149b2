import BeliefRevision.Formula.Basic
import BeliefRevision.Ranking

/-!
# Influence of variables

A formula as a whole has influence one. Every connective splits its influence evenly among its
operands, and a variable collects what reaches its occurrences. The search for models assigns the
most influential variables first.
-/

namespace BeliefRevision

/-- Variables with the influence collected so far, in the order of first occurrence. -/
abbrev Influences := List (Variable × Float)

/-- Adds to the influence of a variable, which goes last if it is new. -/
def Influences.collect (share : Float) (v : Variable) : Influences → Influences
  | [] => [(v, share)]
  | (w, x) :: rest =>
    if w = v then (w, x + share) :: rest else (w, x) :: Influences.collect share v rest

namespace Formula

mutual

/-- Passes a share of influence down to the variables of a formula. -/
def spread (share : Float) : Formula → Influences → Influences
  | var v, sums => sums.collect share v
  | top, sums | bot, sums => sums
  | not p, sums => spread (share / Float.ofNat 1) p sums
  | join _ ps, sums => spreadAll (share / Float.ofNat ps.length) ps sums
  | binary _ p q, sums =>
    let half := share / Float.ofNat 2
    spread half q (spread half p sums)

/-- Passes the same share of influence down to each formula of a list in turn. -/
def spreadAll (share : Float) : List Formula → Influences → Influences
  | [], sums => sums
  | p :: ps, sums => spreadAll share ps (spread share p sums)

end

/-- The influence of each variable of a formula, in the order of first occurrence. -/
def influences (p : Formula) : Influences := p.spread 1 []

end Formula

/-- The variables of a formula from the most to the least influential, each once. Equally
influential ones keep the order of first occurrence. -/
def Formula.branchingOrder (p : Formula) : List Variable :=
  (ranked (fun entry => orderKey entry.2) p.influences).map Prod.fst

end BeliefRevision
