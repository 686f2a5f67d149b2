import BeliefRevision.Proofs.Projection

/-!
# Sentences that nobody can tell apart

Equivalent sentences may lead to different beliefs, as a revision by nearness compares assignments
to the variables that occur, and a comparison may look at these. Sentences are synonymous if they
are equivalent and also mention the same variables, unless they are contradictions
(`Formula.Synonymous`). No revision that compares by total preorders tells them apart, whatever
variables its layers or regions of trust mention.

* `Trust.synonymous_understand_complete`, `Trust.restrict_eq_of_holds_eq`: synonymous sentences are
  understood as synonymous ones, or as the same one.
* `Revision.holds_revise_of_synonymous`: they leave the same possible.
* **`Agent.Regular.isSolvedBy_eq`**: they solve the same agents.
-/

namespace BeliefRevision

namespace Formula

variable {p q : Formula}

/-- The formulas are true under the same valuations, and mention the same variables unless they are
contradictions. -/
structure Synonymous (p q : Formula) : Prop where
  holds_eq : ∀ f, p.holds f = q.holds f
  mem_occurrences_iff : (∃ f, p.holds f = true) → ∀ v, v ∈ p.occurrences ↔ v ∈ q.occurrences

theorem Synonymous.exists_holds_iff (h : p.Synonymous q) :
    (∃ f, p.holds f = true) ↔ ∃ f, q.holds f = true :=
  exists_congr fun f => by rw [h.holds_eq]

theorem Synonymous.symm (h : p.Synonymous q) : q.Synonymous p where
  holds_eq f := (h.holds_eq f).symm
  mem_occurrences_iff possible v :=
    (h.mem_occurrences_iff (h.exists_holds_iff.mpr possible) v).symm

theorem Synonymous.isModel (h : p.Synonymous q) {a : Assignment} (ha : p.IsModel a) :
    q.IsModel a := by
  obtain ⟨f, hf, rfl⟩ := isModel_iff_exists_on.mp ha
  have vocabulary : p.vocabulary = q.vocabulary := Std.ExtTreeSet.ext_mem fun v => by
    rw [mem_vocabulary, mem_vocabulary, h.mem_occurrences_iff ⟨f, hf⟩]
  rw [vocabulary, isModel_on_iff, ← h.holds_eq, hf]

/-- Synonymous formulas have the same models. -/
theorem Synonymous.mem_models_iff (h : p.Synonymous q) {a : Assignment} :
    a ∈ p.models ↔ a ∈ q.models := by
  rw [mem_models, mem_models]
  exact ⟨h.isModel, h.symm.isModel⟩

end Formula

/-! ## Trust -/

namespace Trust

variable {declared : List Formula} {s s' : Formula}

theorem synonymous_understand_complete (h : s.Synonymous s') :
    (complete.understand s).Synonymous (complete.understand s') where
  holds_eq f := by rw [holds_understand_complete, holds_understand_complete, h.holds_eq]
  mem_occurrences_iff possible v := by
    simp only [holds_understand_complete] at possible
    rw [mem_occurrences_understand_complete, mem_occurrences_understand_complete,
      and_iff_right possible, and_iff_right (h.exists_holds_iff.mp possible)]
    exact h.mem_occurrences_iff possible v

theorem restrict_eq_of_holds_eq (h : ∀ f, s.holds f = s'.holds f) :
    restrict declared s = restrict declared s' :=
  restrict_congr fun _ _ => exists_congr fun f => by rw [h]

end Trust

/-! ## Revision -/

namespace Revision

variable {r : Revision} {k : Belief} {s s' : Formula} {f : Valuation}

theorem scope_congr (h : ∀ v, v ∈ s.occurrences ↔ v ∈ s'.occurrences) : scope k s = scope k s' := by
  refine Std.ExtTreeSet.ext_mem fun v => ?_
  rw [scope, scope, mem_vocabulary_ofList, mem_vocabulary_ofList, List.mem_append, List.mem_append,
    h]

/-- The revision goes by consistency or by nearness under total preorders, or does so behind trust,
nested to any depth. -/
inductive Preordered : Revision → Prop where
  | consistency : Preordered consistency
  | nearest {p : Preference} (preorder : ∀ k, Std.TransCmp (p.comparison k)) :
      Preordered (nearest p)
  | trusting (t : Trust) {r : Revision} (inner : Preordered r) : Preordered (trusting t r)

/-- Revisions by distance compare by total preorders, whatever the metric. -/
theorem Preordered.distance (metric : Metric) (alarm : Alarm) :
    Preordered (.nearest ⟨.distance metric, alarm⟩) :=
  .nearest fun k => Preference.transCmp_distance metric alarm k

/-- **Synonymous sentences leave the same possible.** -/
theorem holds_revise_of_synonymous (hr : r.Preordered) (hs : s.Canonical) (hs' : s'.Canonical)
    (h : s.Synonymous s') :
    (r.revise k s).formula.holds f = true ↔ (r.revise k s').formula.holds f = true := by
  induction hr generalizing s s' with
  | consistency =>
    change (consistent k s).formula.holds f = true ↔ (consistent k s').formula.holds f = true
    rw [holds_consistent hs, holds_consistent hs']
    simp only [h.holds_eq]
  | nearest preorder =>
    have preorder := preorder k
    rw [holds_revise_nearest, holds_revise_nearest, ← h.holds_eq]
    refine and_congr_right fun hf => ?_
    rw [scope_congr (h.mem_occurrences_iff ⟨f, hf⟩)]
    simp only [h.holds_eq]
  | trusting t _ ih =>
    cases t with
    | complete =>
      exact ih (Trust.canonical_understand_complete hs) (Trust.canonical_understand_complete hs')
        (Trust.synonymous_understand_complete h)
    | regions declared some =>
      change (revise _ k (Trust.restrict declared s)).formula.holds f = true ↔
        (revise _ k (Trust.restrict declared s')).formula.holds f = true
      rw [Trust.restrict_eq_of_holds_eq h.holds_eq]

end Revision

/-! ## Agents -/

namespace Agent

variable {agent : Agent} {k k' : Belief} {s s' : Formula}

/-- The agent's goal is canonical, and it compares by total preorders if it compares at all. -/
structure Regular (agent : Agent) : Prop where
  goal : agent.goal.Canonical
  revision : agent.revision.Preordered

/-- Equivalent beliefs reach the same goals. -/
theorem isReachedBy_of_holds_iff
    (h : ∀ f, k.formula.holds f = true ↔ k'.formula.holds f = true) :
    agent.isReachedBy k = agent.isReachedBy k' := by
  refine isReachedBy_congr agent.goal.isOver_vocabulary ?_
  simp only [Formula.possibilities, h]

/-- **Synonymous sentences solve the same agents.** -/
theorem Regular.isSolvedBy_eq (ha : agent.Regular) (hs : s.Canonical) (hs' : s'.Canonical)
    (h : s.Synonymous s') : agent.isSolvedBy s = agent.isSolvedBy s' :=
  isReachedBy_of_holds_iff fun _ =>
    Revision.holds_revise_of_synonymous ha.revision hs hs' h

end Agent

end BeliefRevision
