import Mathlib.Order.Preorder.Finite
import BeliefRevision.Proofs.Refinements

/-!
# Goals that stand for others

A goal is left out of the announced disjunction if another one satisfies it, whether or not that one
is kept. Where goals entail each other one way only, this does no harm: a goal that entails the
given one and is entailed by no stronger goal is kept. But goals that say the same in different
words leave each other out. If no goal stands out, the fallback keeps them all; if one does, the
others are forgotten (`forgotten_goal`), and with them the announcement that would solve everybody.

* **`represented_or_ambiguous`**: a goal is represented unless one that entails it has a synonym,
  and some goal stands out.
-/

namespace BeliefRevision

namespace Announcement

variable {agents : List Agent} {g t : Formula}

/-- A goal that is kept in the disjunction entails the given one. -/
def Represented (agents : List Agent) (t : Formula) : Prop :=
  ∃ g ∈ independentGoals agents, g.entails t = true

/-- A goal that entails the given one says the same as another goal. -/
def Ambiguous (agents : List Agent) (t : Formula) : Prop :=
  ∃ g ∈ goals agents, g.entails t = true ∧ ∃ other ∈ goals agents, other ≠ g ∧ other.Equivalent g

/-- A goal that is left out is entailed by another one. -/
theorem exists_entails_of_not_standsOut (h : ¬StandsOut agents g) :
    ∃ other ∈ goals agents, other ≠ g ∧ other.entails g = true := by
  unfold StandsOut at h
  push Not at h
  obtain ⟨other, hother, differs, satisfies⟩ := h
  refine ⟨other, hother, differs, ?_⟩
  rw [ne_eq, Bool.not_eq_false, Formula.isSatisfiedBy, Bool.and_eq_true] at satisfies
  exact satisfies.1

/-- Among the goals that entail the given one there is one that no other goal entails strictly. -/
theorem exists_strongest (h : t ∈ goals agents) :
    ∃ g ∈ goals agents, g.entails t = true ∧
      ∀ other ∈ goals agents, other.entails g = true → other.Equivalent g := by
  have finite : {g | g ∈ goals agents ∧ g.entails t = true}.Finite :=
    (List.finite_toSet (goals agents)).subset fun _ hg => hg.1
  obtain ⟨g, ⟨mem, entails⟩, strongest⟩ := finite.exists_minimalFor
    (fun g : Formula => {f : Valuation | g.holds f = true}) _ ⟨t, h, Formula.entails_refl t⟩
  refine ⟨g, mem, entails, fun other hother stronger => ?_⟩
  have back := strongest ⟨hother, Formula.entails_trans stronger entails⟩
    (Formula.entails_iff.mp stronger)
  exact Formula.equivalent_iff_entails.mpr ⟨stronger, Formula.entails_iff.mpr back⟩

/-- The strongest goal that entails the given one is kept, unless it is left out for a synonym. -/
theorem represented_or_ambiguous_of_mem (h : t ∈ goals agents) :
    Represented agents t ∨ Ambiguous agents t := by
  obtain ⟨g, mem, entails, strongest⟩ := exists_strongest h
  by_cases out : StandsOut agents g
  · exact Or.inl ⟨g, mem_independentGoals.mpr ⟨mem, Or.inl out⟩, entails⟩
  · obtain ⟨other, hother, differs, stronger⟩ := exists_entails_of_not_standsOut out
    exact Or.inr ⟨g, mem, entails, other, hother, differs, strongest other hother stronger⟩

/-- Three goals of which the first two say the same, so that only the third one is kept. The search
then finds nothing, although the disjunction of all goals solves all agents. -/
theorem forgotten_goal :
    ∃ agents : List Agent, agents = [⟨{.var "p"}, .var "p", .consistency⟩,
        ⟨{.var "p"}, .not (.not (.var "p")), .consistency⟩,
        ⟨{.not (.var "p")}, .not (.var "p"), .consistency⟩] ∧
      independentGoals agents = [.not (.var "p")] ∧
      (∃ agent ∈ agents, ¬Represented agents agent.goal) ∧
      Strategy.refinement.resolve agents = .ok none ∧
      ∀ agent ∈ agents,
        agent.isSolvedBy (Formula.disjunction (agents.map Agent.goal)) = true := by
  refine ⟨_, rfl, by decide +kernel, ⟨_, List.mem_cons_self, ?_⟩, by decide +kernel,
    by decide +kernel⟩
  unfold Represented
  decide +kernel

end Announcement

/-- **A goal is represented unless one that entails it has a synonym.** Whatever the agents, each
goal is entailed by one that is kept in the announced disjunction, or else by one that says the same
as another goal, while some further goal stands out. -/
theorem represented_or_ambiguous {agents : List Agent} {agent : Agent} (h : agent ∈ agents) :
    Announcement.Represented agents agent.goal ∨
      Announcement.Ambiguous agents agent.goal ∧
        ∃ other ∈ Announcement.goals agents, Announcement.StandsOut agents other := by
  have mem : agent.goal ∈ Announcement.goals agents := Announcement.mem_goals.mpr ⟨agent, h, rfl⟩
  by_cases some : ∃ other ∈ Announcement.goals agents, Announcement.StandsOut agents other
  · exact (Announcement.represented_or_ambiguous_of_mem mem).imp_right fun h => ⟨h, some⟩
  · -- All goals are kept, the given one among them.
    refine Or.inl ⟨agent.goal, Announcement.mem_independentGoals.mpr ⟨mem, Or.inr ?_⟩,
      Formula.entails_refl _⟩
    exact fun other hother out => some ⟨other, hother, out⟩

/-- The second of three goals leaves out the first one and is kept, as no two of them say the
same. -/
theorem represented_or_ambiguous_three_agents :
    ∃ agents : List Agent, agents = [⟨∅, .var "p", .consistency⟩,
        ⟨∅, .join .and [.var "p", .var "q"], .consistency⟩, ⟨∅, .not (.var "p"), .consistency⟩] ∧
      (⟨∅, .var "p", .consistency⟩ : Agent) ∈ agents ∧
      (.var "p") ∉ Announcement.independentGoals agents ∧
      Announcement.Represented agents (.var "p") := by
  have different : ¬∃ g ∈ Announcement.goals [(⟨∅, .var "p", .consistency⟩ : Agent),
      ⟨∅, .join .and [.var "p", .var "q"], .consistency⟩, ⟨∅, .not (.var "p"), .consistency⟩],
      ∃ other ∈ Announcement.goals [(⟨∅, .var "p", .consistency⟩ : Agent),
        ⟨∅, .join .and [.var "p", .var "q"], .consistency⟩, ⟨∅, .not (.var "p"), .consistency⟩],
        other ≠ g ∧ other.entails g = true ∧ g.entails other = true := by
    decide +kernel
  refine ⟨_, rfl, List.mem_cons_self, by decide +kernel, ?_⟩
  refine (represented_or_ambiguous List.mem_cons_self).resolve_right ?_
  rintro ⟨⟨g, hg, -, other, hother, differs, same⟩, -⟩
  exact different ⟨g, hg, other, hother, differs, Formula.equivalent_iff_entails.mp same⟩

end BeliefRevision
