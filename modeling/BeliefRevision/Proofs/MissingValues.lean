import BeliefRevision.Proofs.Truth

/-!
# Where evaluation fails

Evaluation asks for the values of all variables that occur, from left to right and whatever the
values seen so far are (`evaluate_eq_demand`). So it fails where this demand does, at the first
occurrence without a value (`demand_eq_error_iff`), and depends on nothing but the values asked for
(`demand_congr`).

* **`evaluation_demands_all`**: when evaluation succeeds, what it fails with, and what it depends
  on.
-/

namespace BeliefRevision

/-! ## Asking for values -/

namespace Assignment

variable {a b : Assignment} {vs : List Variable} {e : Error}

/-- The variable has no value, and somewhere in the list it follows variables that all have one. -/
def FirstMissing (a : Assignment) (vs : List Variable) (v : Variable) : Prop :=
  v ∉ a ∧ ∃ before after, vs = before ++ v :: after ∧ ∀ w ∈ before, w ∈ a

theorem demand_eq_error_iff :
    a.demand vs = .error e ↔ ∃ v, e = .unassigned v ∧ a.FirstMissing vs v := by
  have first (v : Variable) : (vs.find? fun v => v ∉ a) = some v ↔ a.FirstMissing vs v := by
    simp [List.find?_eq_some_iff_append, FirstMissing]
  simp only [← first]
  unfold demand
  cases vs.find? fun v => v ∉ a <;> simp [eq_comm]

theorem demand_congr (h : ∀ v ∈ vs, a[v]? = b[v]?) : a.demand vs = b.demand vs := by
  induction vs with
  | nil => rfl
  | cons v vs ih =>
    obtain ⟨first, others⟩ := List.forall_mem_cons.mp h
    have given : v ∈ a ↔ v ∈ b := by rw [mem_iff_exists, mem_iff_exists, first]
    rw [← List.singleton_append, demand_append, demand_append, ih others]
    simp only [demand_singleton, given]

end Assignment

namespace Formula

/-- **Evaluation fails exactly on missing values, and names the first one.** It succeeds if every
variable of the formula has a value; none is passed over, even where the values of other operands
would settle the formula. Otherwise it names the first occurrence without a value. Assignments that
agree on the variables of the formula give the same result. -/
theorem evaluation_demands_all (p : Formula) (a : Assignment) :
    ((∃ x, p.evaluate a = .ok x) ↔ ∀ v ∈ p.vocabulary, v ∈ a) ∧
    (∀ e, p.evaluate a = .error e ↔ ∃ v, e = .unassigned v ∧ a.FirstMissing p.occurrences v) ∧
    ∀ b : Assignment, (∀ v ∈ p.vocabulary, a[v]? = b[v]?) → p.evaluate a = p.evaluate b := by
  refine ⟨?_, fun e => ?_, fun b agree => ?_⟩
  · simp only [mem_vocabulary, ← Assignment.demand_eq_ok_iff, evaluate_eq_demand]
    cases a.demand p.occurrences <;> simp [Except.map]
  · rw [← Assignment.demand_eq_error_iff, evaluate_eq_demand]
    cases a.demand p.occurrences <;> simp [Except.map]
  · have agree' : ∀ v ∈ p.occurrences, a[v]? = b[v]? := fun v hv =>
      agree v (mem_vocabulary.mpr hv)
    have values : p.holds a.valuation = p.holds b.valuation :=
      holds_congr fun v hv => by rw [Assignment.valuation, Assignment.valuation, agree' v hv]
    rw [evaluate_eq_demand, evaluate_eq_demand, Assignment.demand_congr agree', values]

/-- The first operand would settle the disjunction, and still the second one is asked. -/
theorem evaluation_demands_all_disjunction :
    ((var "p").or ((var "q").and (var "r"))).evaluate (.ofList [("p", true)]) =
      .error (.unassigned "q") ∧
    (∀ v ∈ ((var "p").or ((var "q").and (var "r"))).vocabulary,
      (.ofList [("p", true)] : Assignment)[v]? =
        (.ofList [("p", true), ("s", false)] : Assignment)[v]?) ∧
    ((var "p").or ((var "q").and (var "r"))).evaluate (.ofList [("p", true)]) =
      ((var "p").or ((var "q").and (var "r"))).evaluate (.ofList [("p", true), ("s", false)]) := by
  have missing : Assignment.FirstMissing (.ofList [("p", true)])
      ((var "p").or ((var "q").and (var "r"))).occurrences "q" :=
    ⟨by decide +kernel, ["p"], ["r"], rfl, by decide +kernel⟩
  have agree : ∀ v ∈ ((var "p").or ((var "q").and (var "r"))).occurrences,
      (.ofList [("p", true)] : Assignment)[v]? =
        (.ofList [("p", true), ("s", false)] : Assignment)[v]? := by decide +kernel
  have agree' : ∀ v ∈ ((var "p").or ((var "q").and (var "r"))).vocabulary,
      (.ofList [("p", true)] : Assignment)[v]? =
        (.ofList [("p", true), ("s", false)] : Assignment)[v]? :=
    fun v hv => agree v (mem_vocabulary.mp hv)
  exact ⟨((evaluation_demands_all _ _).2.1 _).mpr ⟨"q", rfl, missing⟩, agree',
    (evaluation_demands_all _ _).2.2 _ agree'⟩

end Formula

end BeliefRevision
