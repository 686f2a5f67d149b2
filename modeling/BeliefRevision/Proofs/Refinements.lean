import BeliefRevision.Proofs.Canonical
import BeliefRevision.Proofs.Failure

/-!
# What refinements say

A refinement joins the disjunction of the independent goals with an assignment to the variables that
the goals leave out. Which goals are independent can be said without the order of the agents
(`mem_independentGoals`), and every refinement mentions the variables of all agents
(`mem_occurrences_of_mem_refinements`).
-/

namespace BeliefRevision.Announcement

variable {agents : List Agent} {s p g : Formula} {a : Assignment} {f : Valuation} {v : Variable}

/-! ## Goals -/

theorem mem_goals : g ∈ goals agents ↔ ∃ agent ∈ agents, agent.goal = g := by
  rw [goals, List.mem_eraseDups, List.mem_map]

/-- No other goal satisfies the goal. -/
def StandsOut (agents : List Agent) (g : Formula) : Prop :=
  ∀ other ∈ goals agents, other = g ∨ g.isSatisfiedBy other = false

/-- **The independent goals** are those that stand out, or all if none does. -/
theorem mem_independentGoals : g ∈ independentGoals agents ↔
    g ∈ goals agents ∧ (StandsOut agents g ∨ ∀ other ∈ goals agents, ¬StandsOut agents other) := by
  have kept (g : Formula) : g ∈ (goals agents).filter (fun g =>
      (goals agents).all fun other => other == g || !g.isSatisfiedBy other) ↔
        g ∈ goals agents ∧ StandsOut agents g := by
    simp [StandsOut]
  unfold independentGoals
  dsimp only
  split
  · next none =>
    have none : ∀ other ∈ goals agents, ¬StandsOut agents other := fun other hother alone =>
      List.not_mem_nil (List.isEmpty_iff.mp none ▸ (kept other).mpr ⟨hother, alone⟩)
    rw [and_iff_left (Or.inr none)]
  · next some =>
    rw [kept]
    refine and_congr_right fun _ => (or_iff_left fun none => some ?_).symm
    refine List.isEmpty_iff.mpr (List.eq_nil_iff_forall_not_mem.mpr fun other hother => ?_)
    exact none other ((kept other).mp hother).1 ((kept other).mp hother).2

theorem exists_agent_of_mem_independentGoals (h : g ∈ independentGoals agents) :
    ∃ agent ∈ agents, agent.goal = g := mem_goals.mp (mem_independentGoals.mp h).1

theorem canonical_base (h : ∀ agent ∈ agents, agent.goal.Canonical) : (base agents).Canonical := by
  refine Formula.canonical_disjunction fun g hg => ?_
  obtain ⟨agent, hagent, rfl⟩ := exists_agent_of_mem_independentGoals hg
  exact h agent hagent

theorem isOver_base (agents : List Agent) :
    (base agents).IsOver (Agent.jointVocabulary agents) := by
  intro v hv
  obtain ⟨g, hg, hv⟩ := Formula.mem_occurrences_disjunction.mp hv
  obtain ⟨agent, hagent, rfl⟩ := exists_agent_of_mem_independentGoals hg
  exact isOver_goal hagent v hv

/-! ## Refinements -/

theorem mem_unmentioned : v ∈ unmentioned agents s ↔
    v ∈ Agent.jointVocabulary agents ∧ v ∉ s.occurrences := by
  rw [unmentioned, Std.ExtTreeSet.mem_filter]
  simp only [Std.ExtTreeSet.get_eq, exists_prop, Bool.not_eq_true', ← Bool.not_eq_true,
    ← Std.ExtTreeSet.mem_iff_contains, Formula.mem_vocabulary]

/-- Refining with nothing leaves the sentence, and so does joining it with what is always true. -/
theorem holds_refine : (refine s a).holds f = true ↔ s.holds f = true ∧ a.CompletesTo f := by
  unfold refine
  split
  · next empty =>
    have nothing : a.CompletesTo f := fun v x h => by
      rw [Std.ExtTreeMap.isEmpty_iff.mp empty] at h
      cases h
    exact (and_iff_left nothing).symm
  · rw [Formula.holds_and, Assignment.holds_toFormula]

theorem mem_occurrences_refine : v ∈ (refine s a).occurrences ↔ v ∈ s.occurrences ∨ v ∈ a := by
  unfold refine
  split
  · next empty =>
    rw [Std.ExtTreeMap.isEmpty_iff.mp empty, or_iff_left Std.ExtTreeMap.not_mem_empty]
  · rw [Formula.mem_occurrences_and, Assignment.mem_occurrences_toFormula]

theorem canonical_refine (h : s.Canonical) (a : Assignment) : (refine s a).Canonical := by
  unfold refine
  split
  · exact h
  · exact Formula.canonical_and h a.canonical_toFormula

theorem mem_refinements : p ∈ refinements agents ↔
    ∃ a : Assignment, a.IsOn (unmentioned agents (base agents)) ∧ refine (base agents) a = p := by
  rw [refinements, List.mem_map]
  simp only [Assignment.mem_onVocabulary]

/-- **A refinement mentions the variables of all agents**, and no others. -/
theorem mem_occurrences_of_mem_refinements (h : p ∈ refinements agents) :
    v ∈ p.occurrences ↔ v ∈ Agent.jointVocabulary agents := by
  obtain ⟨a, on, rfl⟩ := mem_refinements.mp h
  rw [mem_occurrences_refine, on, mem_unmentioned]
  have base := isOver_base agents v
  tauto

end BeliefRevision.Announcement
