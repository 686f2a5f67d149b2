import BeliefRevision.Assignment.Distance
import BeliefRevision.Model.Enumeration

/-!
# Disjunctive normal forms

A term is an assignment read as the conjunction of its literals. The full normal form of a formula
is the disjunction of its models. The merged one starts from the models too. As long as two terms
with the same variables differ on exactly one of them, they are replaced by the term that leaves
this variable out.

Terms are merged level by level, by the number of their variables: merging terms of one level adds
terms to the next lower one only. On each level the terms are kept in order, and the first pair that
can be merged is taken, until none is left.
-/

namespace BeliefRevision

namespace Assignment

/-- The order of terms: by their variables, and by their values if these are the same. -/
def termOrder : Assignment → Assignment → Ordering := compareLex (compareOn domain) compare

instance : Std.TransCmp termOrder :=
  inferInstanceAs (Std.TransCmp (compareLex (compareOn domain) compare))

instance : Std.LawfulEqCmp termOrder where
  eq_of_compare h := by
    rw [termOrder, compareLex_eq_eq] at h
    exact Std.LawfulEqOrd.eq_of_compare h.2

/-- Sorts terms and drops repetitions. -/
def sortTerms (terms : List Assignment) : List Assignment :=
  (Std.ExtTreeSet.ofList terms termOrder).toList

/-- Whether two terms have the same variables and differ on exactly one of them. -/
def isAdjacent (a b : Assignment) : Bool := a.domain == b.domain && a.hamming b == 1

/-- What two assignments have in common. -/
def common (a b : Assignment) : Assignment := a.filter fun v x => b[v]? == some x

/-- The first pair of adjacent terms of a list. -/
def adjacentPair? : List Assignment → Option (Assignment × Assignment)
  | [] => none
  | a :: rest =>
    match rest.find? a.isAdjacent with
    | some b => some (a, b)
    | none => adjacentPair? rest

theorem mem_of_adjacentPair? {terms : List Assignment} {a b : Assignment}
    (h : adjacentPair? terms = some (a, b)) : a ∈ terms := by
  fun_induction adjacentPair? terms with
  | case1 => simp at h
  | case2 c rest d hd =>
    simp only [Option.some.injEq, Prod.mk.injEq] at h
    exact h.1 ▸ List.mem_cons_self
  | case3 c rest hn ih => exact List.mem_cons_of_mem c (ih h)

/-- Merges adjacent terms until none are left: the terms that stay, and those that arise. -/
def mergeLevel (terms : List Assignment) : List Assignment × List Assignment :=
  match _h : adjacentPair? terms with
  | none => (terms, [])
  | some (a, b) =>
    let (kept, merged) := mergeLevel ((terms.erase a).erase b)
    (kept, a.common b :: merged)
termination_by terms.length
decreasing_by
  have ha := List.length_erase_of_mem (mem_of_adjacentPair? _h)
  have hb : ((terms.erase a).erase b).length ≤ (terms.erase a).length :=
    List.erase_sublist.length_le
  have := List.length_pos_of_mem (mem_of_adjacentPair? _h)
  omega

/-- Merges the terms of the level with `n` variables, then those of the levels below. -/
def mergeLevels : Nat → List Assignment → List Assignment
  | 0, terms => terms
  | n + 1, terms =>
    let (kept, merged) := mergeLevel (sortTerms terms)
    kept ++ mergeLevels n merged

end Assignment

namespace Formula

/-- The disjunction of the models of a formula. -/
def toFullDnf (p : Formula) : Formula := ofAssignments p.models

/-- The terms of the merged normal form, in order. -/
def mergedTerms (p : Formula) : List Assignment :=
  Assignment.sortTerms (Assignment.mergeLevels p.vocabulary.size p.models)

/-- The disjunction of the merged terms of a formula. -/
def toDnf (p : Formula) : Formula := ofAssignments p.mergedTerms

end Formula

end BeliefRevision
