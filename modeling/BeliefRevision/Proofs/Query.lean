import BeliefRevision.Model.Query
import BeliefRevision.Proofs.Building
import BeliefRevision.Proofs.Enumeration

/-!
# Questions about models are answered rightly

The questions of `Model.Query` look for one model among those of a suitable formula. As the search
for models is exact, their answers are statements about all valuations. So is equivalence, which is
entailment both ways (`equivalent_iff`, `equivalent_iff_entails`).
-/

namespace BeliefRevision.Formula

variable {p q : Formula} {a : Assignment} {f g : Valuation} {vs : Vocabulary}

/-! ## Formulas over a vocabulary -/

/-- The vocabulary has all variables of the formula. -/
def IsOver (p : Formula) (vs : Vocabulary) : Prop := ∀ v ∈ p.occurrences, v ∈ vs

theorem isOver_vocabulary (p : Formula) : p.IsOver p.vocabulary := fun _ => mem_vocabulary.mpr

theorem IsOver.holds_eq (h : p.IsOver vs) (agree : ∀ v ∈ vs, f v = g v) : p.holds f = p.holds g :=
  holds_congr fun v hv => agree v (h v hv)

/-- Evaluation under an assignment is truth under any completion of it. -/
theorem evaluate_of_completesTo (given : ∀ v ∈ p.occurrences, v ∈ a) (h : a.CompletesTo f) :
    p.evaluate a = .ok (p.holds f) := by
  refine evaluate_eq fun v hv => ?_
  obtain ⟨x, hx⟩ := Assignment.mem_iff_exists.mp (given v hv)
  rw [hx, h v x hx]

theorem IsOver.evaluate_eq (h : p.IsOver vs) (ha : a.IsOn vs) (hf : a.CompletesTo f) :
    p.evaluate a = .ok (p.holds f) :=
  evaluate_of_completesTo (fun v hv => (ha v).mpr (h v hv)) hf

theorem IsOver.evaluate_on (h : p.IsOver vs) : p.evaluate (f.on vs) = .ok (p.holds f) :=
  h.evaluate_eq (Assignment.isOn_on f vs) (Assignment.completesTo_on f vs)

theorem IsOver.evaluate_eq_true_iff (h : p.IsOver vs) (ha : a.IsOn vs) :
    p.evaluate a = .ok true ↔ p.holds a.valuation = true := by
  rw [h.evaluate_eq ha a.completesTo_valuation, Except.ok.injEq]

/-- The assignments that satisfy a formula over their variables are the valuations that make it
true, cut down to them. -/
theorem IsOver.evaluate_iff_exists_on (h : p.IsOver vs) :
    a.IsOn vs ∧ p.evaluate a = .ok true ↔ ∃ f, p.holds f = true ∧ f.on vs = a := by
  constructor
  · rintro ⟨on, satisfies⟩
    have cut : a = a.valuation.on vs := Assignment.eq_on_of_completesTo on a.completesTo_valuation
    exact ⟨a.valuation, (h.evaluate_eq_true_iff on).mp satisfies, cut.symm⟩
  · rintro ⟨f, hf, rfl⟩
    exact ⟨Assignment.isOn_on f vs, h.evaluate_on.trans (congrArg _ hf)⟩

/-! ## Questions -/

theorem IsModel.holds (ha : p.IsModel a) (hf : a.CompletesTo f) : p.holds f = true :=
  (Except.ok.inj (ha.2.symm.trans (p.isOver_vocabulary.evaluate_eq ha.1 hf))).symm

/-- The models of a formula are the valuations that make it true, cut down to its variables. -/
theorem isModel_on_iff : p.IsModel (f.on p.vocabulary) ↔ p.holds f = true := by
  refine ⟨fun h => h.holds (Assignment.completesTo_on f _), fun h => ⟨Assignment.isOn_on f _, ?_⟩⟩
  rw [p.isOver_vocabulary.evaluate_on, h]

theorem isModel_iff_exists_on : p.IsModel a ↔ ∃ f, p.holds f = true ∧ f.on p.vocabulary = a :=
  p.isOver_vocabulary.evaluate_iff_exists_on

theorem isSatisfiable_iff_models : p.isSatisfiable = true ↔ p.models ≠ [] := by
  have first := Frontier.models_eq_next p.promise p (.root p.promise p p.branchingOrder)
  unfold isSatisfiable models
  change (Frontier.next p.promise p (.root p.promise p p.branchingOrder)).1.isSome = true ↔ _
  rw [first]
  cases h : (Frontier.next p.promise p (.root p.promise p p.branchingOrder)).1 with
  | some a => simp
  | none =>
    rw [Frontier.next_eq_nil h, Frontier.models_of_step_eq_none rfl]
    simp

/-- **Satisfiability is truth under some valuation.** -/
theorem isSatisfiable_iff : p.isSatisfiable = true ↔ ∃ f, p.holds f = true := by
  rw [isSatisfiable_iff_models]
  constructor
  · intro nonempty
    obtain ⟨a, ha⟩ := List.exists_mem_of_ne_nil _ nonempty
    exact ⟨a.valuation, (mem_models.mp ha).holds a.completesTo_valuation⟩
  · rintro ⟨f, hf⟩
    exact List.ne_nil_of_mem (mem_models.mpr (isModel_on_iff.mpr hf))

theorem isContradiction_iff : p.isContradiction = true ↔ ∀ f, p.holds f = false := by
  rw [isContradiction, Bool.not_eq_true', ← Bool.not_eq_true, isSatisfiable_iff]
  simp

theorem isTautology_iff : p.isTautology = true ↔ ∀ f, p.holds f = true := by
  rw [isTautology, isContradiction_iff]
  simp [Formula.holds]

/-- **Entailment is truth under all valuations that make the first formula true.** -/
theorem entails_iff : p.entails q = true ↔ ∀ f, p.holds f = true → q.holds f = true := by
  rw [entails, isContradiction_iff]
  refine forall_congr' fun f => ?_
  rw [← Bool.not_eq_true, holds_and, holds_not]
  simp

theorem entails_refl (p : Formula) : p.entails p = true := entails_iff.mpr fun _ hf => hf

theorem entails_trans {r : Formula} (h : p.entails q = true) (h' : q.entails r = true) :
    p.entails r = true :=
  entails_iff.mpr fun f hf => entails_iff.mp h' f (entails_iff.mp h f hf)

/-! ## Equivalence -/

/-- The formulas evaluate alike under every assignment that has values for the variables of both. -/
def Equivalent (p q : Formula) : Prop :=
  ∀ a : Assignment, (∀ v ∈ p.occurrences ++ q.occurrences, v ∈ a) → p.evaluate a = q.evaluate a

/-- **Equivalence is truth under the same valuations.** -/
theorem equivalent_iff : p.Equivalent q ↔ ∀ f, p.holds f = q.holds f := by
  constructor
  · intro h f
    have left : p.IsOver (.ofList (p.occurrences ++ q.occurrences)) := fun v hv =>
      mem_vocabulary_ofList.mpr (List.mem_append_left _ hv)
    have right : q.IsOver (.ofList (p.occurrences ++ q.occurrences)) := fun v hv =>
      mem_vocabulary_ofList.mpr (List.mem_append_right _ hv)
    have same := h (f.on (.ofList (p.occurrences ++ q.occurrences))) fun v hv =>
      (Assignment.isOn_on f _ v).mpr (mem_vocabulary_ofList.mpr hv)
    rw [left.evaluate_on, right.evaluate_on] at same
    exact Except.ok.inj same
  · intro h a given
    rw [evaluate_of_completesTo (fun v hv => given v (List.mem_append_left _ hv))
        a.completesTo_valuation,
      evaluate_of_completesTo (fun v hv => given v (List.mem_append_right _ hv))
        a.completesTo_valuation, h]

theorem equivalent_iff_entails :
    p.Equivalent q ↔ p.entails q = true ∧ q.entails p = true := by
  rw [equivalent_iff, entails_iff, entails_iff, ← forall_and]
  exact forall_congr' fun f => Bool.eq_iff_iff.trans iff_iff_implies_and_implies

theorem Equivalent.symm (h : p.Equivalent q) : q.Equivalent p :=
  equivalent_iff.mpr fun f => (equivalent_iff.mp h f).symm

theorem Equivalent.trans {r : Formula} (h : p.Equivalent q) (h' : q.Equivalent r) :
    p.Equivalent r :=
  equivalent_iff.mpr fun f => (equivalent_iff.mp h f).trans (equivalent_iff.mp h' f)

end BeliefRevision.Formula
