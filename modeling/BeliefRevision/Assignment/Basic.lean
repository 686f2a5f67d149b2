import Std.Data.ExtTreeMap
import BeliefRevision.Formula.Building

/-!
# Assignments

An assignment gives truth values to finitely many variables. It serves as a partial valuation
during a search and as a model at its end. Assignments are equal when they give the same values,
and they are ordered by their entries `(variable, value)` from the least variable on, false before
true, an assignment before its extensions by greater variables.

`Assignment.toFormula` writes an assignment as a conjunction of literals, and
`Formula.ofAssignments` a list of them as the disjunction of those. `Assignment.truthTable` lists all
assignments to variables that stand in a given order; `Assignment.onVocabulary` and
`Assignment.onVariables` do so for a set of variables and for any list of them.
-/

namespace BeliefRevision

/-- Truth values for finitely many variables. -/
abbrev Assignment := Std.ExtTreeMap Variable Bool

namespace Assignment

/-- The order of single entries: by variable, then false before true. -/
def entryOrder : Variable × Bool → Variable × Bool → Ordering :=
  compareLex (compareOn Prod.fst) (compareOn Prod.snd)

/-- The order of assignments: entry by entry from the least variable on. -/
def order (a b : Assignment) : Ordering := List.compareLex entryOrder a.toList b.toList

instance : Ord Assignment := ⟨order⟩

instance : Std.TransCmp entryOrder :=
  inferInstanceAs (Std.TransCmp (compareLex (compareOn Prod.fst) (compareOn Prod.snd)))

instance : Std.LawfulEqCmp entryOrder where
  eq_of_compare {x y} h := by
    rw [entryOrder, compareLex_eq_eq] at h
    exact Prod.ext (Std.LawfulEqOrd.eq_of_compare h.1) (Std.LawfulEqOrd.eq_of_compare h.2)

instance : Std.TransOrd Assignment where
  eq_swap {a b} := @Std.OrientedCmp.eq_swap _ (List.compareLex entryOrder) _ a.toList b.toList
  isLE_trans {a b c} :=
    @Std.TransCmp.isLE_trans _ (List.compareLex entryOrder) _ a.toList b.toList c.toList

instance : Std.LawfulEqOrd Assignment where
  eq_of_compare h := Std.ExtTreeMap.toList_inj.mp
    (@Std.LawfulEqCmp.eq_of_compare _ (List.compareLex entryOrder) _ _ _ h)

/-- The variables with a value, least first. -/
def domain (a : Assignment) : List Variable := a.keys

/-- The assignment that holds the listed entries, the last one for each variable. -/
def ofEntries (entries : List (Variable × Bool)) : Assignment :=
  entries.foldl (fun a (v, b) => a.insert v b) ∅

/-- The literal that holds exactly where the variable has the given value. -/
def literal (entry : Variable × Bool) : Formula :=
  if entry.2 then .var entry.1 else .not (.var entry.1)

/-- The conjunction of the literals of an assignment, least variable first; true if it is empty. -/
def toFormula (a : Assignment) : Formula :=
  (Formula.conjunction? (a.toList.map literal)).getD .top

/-- The assignments to the listed variables, of which none is repeated: true before false, where the
first variable counts most. -/
def truthTable (vs : List Variable) : List Assignment :=
  vs.foldl (fun as v => as.flatMap fun a => [a.insert v true, a.insert v false]) [∅]

/-- The assignments to the given variables, and no others: true before false, where the least
variable counts most. -/
def onVocabulary (vs : Vocabulary) : List Assignment := truthTable vs.toList

/-- The assignments to the listed variables, and no others: true before false, where the least
variable counts most, wherever it is listed. -/
def onVariables (vs : List Variable) : List Assignment := truthTable (Variable.arrange vs)

/-- The text of an assignment: its literals in braces. -/
def text (a : Assignment) : String :=
  "\x7b" ++ ", ".intercalate (a.toList.map fun (v, b) => if b then v else "not " ++ v) ++ "\x7d"

end Assignment

/-- The disjunction of the listed assignments, each as the conjunction of its literals; false if
none is listed. -/
def Formula.ofAssignments (as : List Assignment) : Formula :=
  Formula.disjunction (as.map Assignment.toFormula)

end BeliefRevision
