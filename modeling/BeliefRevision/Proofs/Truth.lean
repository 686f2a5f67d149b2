import BeliefRevision.Formula.Evaluation
import BeliefRevision.Proofs.Valuation

/-!
# Truth

`Formula.holds` is the truth value of a formula under a valuation, one connective at a time.
Evaluation by assignments is measured against it.

* `holds_congr`: truth depends only on the variables that occur.
* `graft`: valuations joined along the variables of a formula.
* `evaluate_eq_demand`: evaluation under an assignment asks for the values of all variables that
  occur, from left to right, and then takes the truth value. Demands can be made one after the other
  (`demand_append`), in the order in which evaluation visits its operands.
* `evaluate_eq`: evaluation under an assignment that has values for all these variables is truth
  under its completions.
-/

namespace BeliefRevision

namespace Formula

/-! ## Induction over formulas -/

/-- Induction over formulas, where the operands of a junction are the members of a list. -/
@[elab_as_elim, induction_eliminator]
theorem induction {motive : Formula → Prop} (var : ∀ v, motive (var v)) (top : motive top)
    (bot : motive bot) (not : ∀ p, motive p → motive (not p))
    (join : ∀ j ps, (∀ p ∈ ps, motive p) → motive (join j ps))
    (binary : ∀ op p q, motive p → motive q → motive (binary op p q)) (p : Formula) : motive p :=
  @Formula.rec motive (fun ps => ∀ p ∈ ps, motive p) var top bot not join binary
    (fun _ h => absurd h List.not_mem_nil) (fun _ _ hp hps => List.forall_mem_cons.mpr ⟨hp, hps⟩) p

/-- Induction over formulas, for all operands of a connective at once. -/
theorem induction_operands {motive : Formula → Prop}
    (step : ∀ p, (∀ q ∈ p.operands, motive q) → motive p) (p : Formula) : motive p := by
  induction p with
  | var v => exact step _ (List.forall_mem_nil _)
  | top => exact step _ (List.forall_mem_nil _)
  | bot => exact step _ (List.forall_mem_nil _)
  | not p ih => exact step _ (List.forall_mem_singleton.mpr ih)
  | join j ps ih => exact step _ ih
  | binary b p q hp hq =>
    exact step _ (List.forall_mem_cons.mpr ⟨hp, List.forall_mem_singleton.mpr hq⟩)

mutual

/-- The truth value of a formula under a valuation. -/
def holds (f : Valuation) : Formula → Bool
  | var v => f v
  | top => true
  | bot => false
  | not p => !holds f p
  | join j ps => j.value (holdsAll f ps)
  | binary op p q => op.value (holds f p) (holds f q)

/-- The truth values of a list of formulas under a valuation. -/
def holdsAll (f : Valuation) : List Formula → List Bool
  | [] => []
  | p :: ps => holds f p :: holdsAll f ps

end

variable {p q : Formula} {ps : List Formula} {f g : Valuation} {v : Variable}

theorem holdsAll_eq_map : holdsAll f ps = ps.map (holds f) := by
  induction ps with
  | nil => rfl
  | cons p ps ih => rw [holdsAll, ih, List.map_cons]

theorem occurrencesAll_eq_flatMap : occurrencesAll ps = ps.flatMap occurrences := by
  induction ps with
  | nil => rfl
  | cons p ps ih => rw [occurrencesAll, ih, List.flatMap_cons]

theorem mem_occurrences_join {j : Junction} :
    v ∈ occurrences (join j ps) ↔ ∃ p ∈ ps, v ∈ occurrences p := by
  rw [occurrences, occurrencesAll_eq_flatMap, List.mem_flatMap]

theorem mem_occurrences_of_mem_operands (hq : q ∈ p.operands) (hv : v ∈ q.occurrences) :
    v ∈ p.occurrences := by
  cases p with
  | not p => exact List.mem_singleton.mp hq ▸ hv
  | join j ps => exact mem_occurrences_join.mpr ⟨q, hq, hv⟩
  | binary b p₁ p₂ =>
    rw [occurrences, List.mem_append]
    rcases List.mem_pair.mp hq with rfl | rfl
    · exact Or.inl hv
    · exact Or.inr hv
  | _ => cases hq

theorem mem_vocabulary : v ∈ p.vocabulary ↔ v ∈ p.occurrences := mem_vocabulary_ofList

/-! ## Truth under different valuations -/

/-- **Truth depends only on the variables that occur.** -/
theorem holds_congr (h : ∀ v ∈ p.occurrences, f v = g v) : p.holds f = p.holds g := by
  induction p with
  | var v => exact h v (List.mem_singleton.mpr rfl)
  | top => rfl
  | bot => rfl
  | not p ih => rw [holds, holds, ih h]
  | join j ps ih =>
    have same : ps.map (holds f) = ps.map (holds g) :=
      List.map_congr_left fun p hp =>
        ih p hp fun v hv => h v (mem_occurrences_join.mpr ⟨p, hp, hv⟩)
    rw [holds, holds, holdsAll_eq_map, holdsAll_eq_map, same]
  | binary op p q ihp ihq =>
    rw [holds, holds, ihp fun v hv => h v (List.mem_append_left _ hv),
      ihq fun v hv => h v (List.mem_append_right _ hv)]

/-- The valuation that follows one valuation on the variables of the formula, and another one
elsewhere. -/
def graft (p : Formula) (f g : Valuation) : Valuation :=
  fun v => if v ∈ p.occurrences then f v else g v

theorem graft_eq_left (h : v ∈ p.occurrences) : p.graft f g v = f v := if_pos h

theorem graft_eq_right (h : v ∉ p.occurrences) : p.graft f g v = g v := if_neg h

theorem holds_graft : p.holds (p.graft f g) = p.holds f := holds_congr fun _ => graft_eq_left

theorem holds_graft_of_apart (apart : ∀ v ∈ p.occurrences, v ∉ q.occurrences) :
    q.holds (p.graft f g) = q.holds g :=
  holds_congr fun v hv => graft_eq_right fun hv' => apart v hv' hv

end Formula

/-! ## Evaluation -/

namespace Assignment

variable {a : Assignment} {us vs : List Variable} {v : Variable}

/-- Fails at the first of the listed variables that has no value. -/
def demand (a : Assignment) (vs : List Variable) : Except Error Unit :=
  match vs.find? fun v => v ∉ a with
  | some v => .error (.unassigned v)
  | none => .ok ()

theorem demand_singleton :
    a.demand [v] = if v ∈ a then .ok () else .error (.unassigned v) := by
  by_cases given : v ∈ a <;> simp [demand, given]

theorem demand_append : a.demand (us ++ vs) = a.demand us >>= fun _ => a.demand vs := by
  unfold demand
  rw [List.find?_append]
  cases us.find? fun v => v ∉ a <;> rfl

theorem demand_eq_ok_iff : a.demand vs = .ok () ↔ ∀ v ∈ vs, v ∈ a := by
  have all : (vs.find? fun v => v ∉ a) = none ↔ ∀ v ∈ vs, v ∈ a := by simp
  rw [← all]
  unfold demand
  cases vs.find? fun v => v ∉ a <;> simp

end Assignment

namespace Formula

variable {p : Formula} {ps : List Formula} {f : Valuation} {a : Assignment}

theorem evaluateAll_eq_demand
    (h : ∀ p ∈ ps, p.evaluate a = (a.demand p.occurrences).map fun _ => p.holds a.valuation) :
    evaluateAll a ps = (a.demand (occurrencesAll ps)).map fun _ => ps.map (holds a.valuation) := by
  induction ps with
  | nil => rfl
  | cons p ps ih =>
    obtain ⟨first, others⟩ := List.forall_mem_cons.mp h
    rw [evaluateAll, first, ih others, occurrencesAll, Assignment.demand_append]
    cases a.demand p.occurrences with
    | error e => rfl
    | ok _ => cases a.demand (occurrencesAll ps) <;> rfl

/-- **Evaluating is asking for the values of all occurrences**, in their order, and then taking the
truth value. -/
theorem evaluate_eq_demand (p : Formula) (a : Assignment) :
    p.evaluate a = (a.demand p.occurrences).map fun _ => p.holds a.valuation := by
  induction p with
  | var v =>
    rw [evaluate, occurrences, Assignment.demand_singleton, holds]
    by_cases given : v ∈ a
    · rw [Assignment.getElem?_eq_valuation given, if_pos given]
      rfl
    · rw [Std.ExtTreeMap.getElem?_eq_none given, if_neg given]
      rfl
  | top => rfl
  | bot => rfl
  | not p ih =>
    rw [evaluate, occurrences, ih]
    cases a.demand p.occurrences <;> rfl
  | join j ps ih =>
    rw [evaluate, occurrences, evaluateAll_eq_demand ih, holds, holdsAll_eq_map]
    cases a.demand (occurrencesAll ps) <;> rfl
  | binary op p q ihp ihq =>
    rw [evaluate, occurrences, ihp, ihq, Assignment.demand_append]
    cases a.demand p.occurrences with
    | error e => rfl
    | ok _ => cases a.demand q.occurrences <;> rfl

theorem evaluateAll_eq (h : ∀ p ∈ ps, p.evaluate a = .ok (p.holds f)) :
    evaluateAll a ps = .ok (ps.map (holds f)) := by
  induction ps with
  | nil => rfl
  | cons p ps ih =>
    rw [evaluateAll, h p List.mem_cons_self, ih fun q hq => h q (List.mem_cons_of_mem p hq)]
    rfl

/-- **Evaluation is truth**: where the assignment gives the values of the valuation to all variables
that occur, evaluation succeeds with the truth value. -/
theorem evaluate_eq (h : ∀ v ∈ p.occurrences, a[v]? = some (f v)) :
    p.evaluate a = .ok (p.holds f) := by
  have given : a.demand p.occurrences = .ok () :=
    Assignment.demand_eq_ok_iff.mpr fun v hv => Assignment.mem_iff_exists.mpr ⟨f v, h v hv⟩
  have values : p.holds a.valuation = p.holds f :=
    holds_congr fun v hv => by rw [Assignment.valuation, h v hv, Option.getD_some]
  rw [evaluate_eq_demand, given, values]
  rfl

end Formula

end BeliefRevision
