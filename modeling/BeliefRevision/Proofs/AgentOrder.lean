import BeliefRevision.Proofs.Agreement
import BeliefRevision.Proofs.Alike
import BeliefRevision.Proofs.Exhaustion
import BeliefRevision.Proofs.Refinements
import BeliefRevision.Proofs.Soundness
import BeliefRevision.Proofs.Synonyms

/-!
# The order of the agents does not matter

Agents may be listed in any order and any number of times. The exhaustive search depends on their
variables and on what solves them all. The other strategies take the goals in the order of the
agents: their disjunctions differ, but are synonymous.

* `Announcement.synonymous_refine`: refinements come in the same order, and are synonymous one by
  one.
* `Announcement.suits_iff`: a widening search makes classes for all agents, if they suit it.
* `Announcement.alike_start`: widening searches start alike, as the levels of lists with the same
  members have the same members, so they end with the same announcement.
* **`resolve_of_mem_iff`**: what the strategies find for two lists of the same agents.
-/

namespace BeliefRevision

/-- A revision by nearness goes by total preorders if its preference does. -/
theorem Revision.Preordered.transCmp_comparison {r : Revision} {k : Belief} {c : Comparator}
    (hr : r.Preordered) (h : r.comparator? k = some c) : Std.TransCmp c.comparison := by
  cases hr with
  | consistency => cases h
  | @nearest p preorder =>
    cases h
    rw [(Comparator.judges_comparison p k).comparison_eq]
    exact preorder k
  | trusting => cases h

namespace Announcement

variable {agents agents' : List Agent} {search : Widening} {g : Formula} {p : Prospect}
  {classes classes' : List (List (List Assignment))}

/-- All agents revise in the way that a widening search needs. -/
def Suits (agents : List Agent) : Widening → Prop
  | .byDistance => JudgeByDistance agents
  | .byOrder => ∀ agent ∈ agents, ∃ c, agent.revision.comparator? agent.initial = some c

/-- **A widening search makes classes** exactly for the agents that suit it. -/
theorem suits_iff : Suits agents search ↔ ∃ classes, classesOf agents search = .ok classes := by
  constructor
  · intro suits
    cases search with
    | byDistance =>
      obtain ⟨cs, hcs⟩ := exists_distanceComparators suits
      exact ⟨_, bind_eq_ok_iff.mpr ⟨cs, hcs, rfl⟩⟩
    | byOrder =>
      obtain ⟨cs, hcs⟩ := exists_comparators .byOrder suits
      exact ⟨_, bind_eq_ok_iff.mpr ⟨cs, hcs, rfl⟩⟩
  · rintro ⟨classes, h⟩
    cases search with
    | byDistance =>
      obtain ⟨cs, hcs, -⟩ := bind_eq_ok_iff.mp h
      exact forall_of_forall₂ (distanceComparators_eq_ok hcs).flip fun c _ hc => ⟨c, hc⟩
    | byOrder =>
      obtain ⟨cs, hcs, -⟩ := bind_eq_ok_iff.mp h
      exact forall_of_forall₂ (comparators_eq_ok hcs).flip fun c _ hc => ⟨c, hc⟩

theorem exists_widened_eq_error (h : ¬Suits agents search) :
    ∃ e : Error, e.IsConfiguration ∧ widened search agents = .error e := by
  cases hw : widened search agents with
  | error e => exact ⟨e, isConfiguration_of_widened hw, rfl⟩
  | ok found =>
    obtain ⟨classes, hclasses, -⟩ := bind_eq_ok_iff.mp hw
    exact absurd (suits_iff.mpr ⟨classes, hclasses⟩) h

/-- An agent starts unsolved, with the classes into which its comparator splits the models. -/
theorem exists_split_of_mem_start (h : classesOf agents search = .ok classes)
    (hp : p ∈ (Pursuit.start agents classes).prospects) :
    p.agent ∈ agents ∧ p.solved = false ∧
      ∃ c, p.agent.revision.comparator? p.agent.initial = some c ∧
        p.classes = c.split search (someGoal agents).models := by
  unfold Pursuit.start at hp
  rw [← List.map_uncurry_zip_eq_zipWith] at hp
  obtain ⟨⟨agent, own⟩, entry, rfl⟩ := List.mem_map.mp hp
  exact ⟨(List.of_mem_zip entry).1, rfl, (List.forall₂_iff_zip.mp (classesOf_eq_ok h)).2 entry⟩

/-! ## What does not depend on the order -/

section SameAgents

variable (same : ∀ agent, agent ∈ agents ↔ agent ∈ agents')

include same

theorem jointVocabulary_congr : Agent.jointVocabulary agents = Agent.jointVocabulary agents' := by
  refine Std.ExtTreeSet.ext_mem fun v => ?_
  simp only [mem_jointVocabulary, same]

theorem solves_congr (s : Formula) : solves agents s = solves agents' s := by
  rw [Bool.eq_iff_iff, solves, solves, List.all_eq_true, List.all_eq_true]
  simp only [same]

theorem isEmpty_congr : agents.isEmpty = agents'.isEmpty := by
  rw [Bool.eq_iff_iff, List.isEmpty_iff, List.isEmpty_iff, List.eq_nil_iff_forall_not_mem,
    List.eq_nil_iff_forall_not_mem]
  simp only [same]

theorem ending_exhaustion_congr :
    Strategy.exhaustion.ending agents = Strategy.exhaustion.ending agents' := by
  unfold Strategy.ending found
  simp only [allCandidates_eq, jointVocabulary_congr same, isEmpty_congr same,
    funext (solves_congr same)]

/-! ## Refinements -/

theorem mem_independentGoals_congr :
    g ∈ independentGoals agents ↔ g ∈ independentGoals agents' := by
  simp only [mem_independentGoals, StandsOut, mem_goals, same]

theorem holds_base_congr (f : Valuation) : (base agents).holds f = (base agents').holds f := by
  rw [Bool.eq_iff_iff, base, base, Formula.holds_disjunction, Formula.holds_disjunction]
  simp only [mem_independentGoals_congr same]

theorem mem_occurrences_base_congr (v : Variable) :
    v ∈ (base agents).occurrences ↔ v ∈ (base agents').occurrences := by
  rw [base, base, Formula.mem_occurrences_disjunction, Formula.mem_occurrences_disjunction]
  simp only [mem_independentGoals_congr same]

theorem unmentioned_congr :
    unmentioned agents (base agents) = unmentioned agents' (base agents') := by
  refine Std.ExtTreeSet.ext_mem fun v => ?_
  rw [mem_unmentioned, mem_unmentioned, jointVocabulary_congr same,
    mem_occurrences_base_congr same]

/-- The refinements by an assignment are synonymous. -/
theorem synonymous_refine (a : Assignment) :
    (refine (base agents) a).Synonymous (refine (base agents') a) where
  holds_eq f := by
    rw [Bool.eq_iff_iff, holds_refine, holds_refine, holds_base_congr same]
  mem_occurrences_iff _ v := by
    rw [mem_occurrences_refine, mem_occurrences_refine, mem_occurrences_base_congr same]

theorem found_refinements_congr (regular : ∀ agent ∈ agents, agent.Regular) :
    Option.Rel Formula.Equivalent (found agents (refinements agents))
      (found agents' (refinements agents')) := by
  have goals : ∀ agent ∈ agents, agent.goal.Canonical := fun agent h => (regular agent h).goal
  have goals' : ∀ agent ∈ agents', agent.goal.Canonical :=
    fun agent h => goals agent ((same agent).mpr h)
  have tests (a : Assignment) : solves agents (refine (base agents) a) =
      solves agents' (refine (base agents') a) := by
    rw [← solves_congr same, Bool.eq_iff_iff, solves, solves, List.all_eq_true, List.all_eq_true]
    refine forall₂_congr fun agent hagent => ?_
    rw [(regular agent hagent).isSolvedBy_eq (canonical_refine (canonical_base goals) a)
      (canonical_refine (canonical_base goals') a) (synonymous_refine same a)]
  unfold found refinements
  rw [isEmpty_congr same]
  split
  · exact .some (Formula.equivalent_iff.mpr fun _ => rfl)
  · rw [List.find?_map, List.find?_map, unmentioned_congr same, Function.comp_def,
      Function.comp_def, funext tests]
    cases List.find? _ _ with
    | none => exact .none
    | some a => exact .some (Formula.equivalent_iff.mpr (synonymous_refine same a).holds_eq)

/-! ## Widening searches -/

theorem synonymous_someGoal : (someGoal agents).Synonymous (someGoal agents') where
  holds_eq f := by
    rw [Bool.eq_iff_iff, someGoal, someGoal, Formula.holds_and, Formula.holds_and,
      Formula.holds_disjunction, Formula.holds_disjunction]
    simp only [List.mem_map, same, Formula.holds_closure]
  mem_occurrences_iff _ v := by
    rw [mem_occurrences_someGoal, mem_occurrences_someGoal, jointVocabulary_congr same]

theorem suits_congr : Suits agents search ↔ Suits agents' search := by
  cases search <;> simp only [Suits, JudgeByDistance, same]

/-- Every agent has a counterpart at the start, with classes that have the same members. -/
theorem exists_alike_start (regular : ∀ agent ∈ agents, agent.Regular)
    (h : classesOf agents search = .ok classes) (h' : classesOf agents' search = .ok classes') :
    ∀ p ∈ (Pursuit.start agents classes).prospects,
      ∃ p' ∈ (Pursuit.start agents' classes').prospects, p.Alike p' := by
  intro p hp
  obtain ⟨hagent, unsolved, c, hc, own⟩ := exists_split_of_mem_start h hp
  have hagent' : p.agent ∈ (Pursuit.start agents' classes').agents := by
    rw [Pursuit.agents_start (classesOf_eq_ok h').length_eq]
    exact (same p.agent).mp hagent
  obtain ⟨p', hp', eq⟩ := List.mem_map.mp hagent'
  obtain ⟨-, unsolved', c', hc', own'⟩ := exists_split_of_mem_start h' hp'
  rw [eq, hc] at hc'
  cases hc'
  have preorder : Std.TransCmp c.comparison :=
    (regular p.agent hagent).revision.transCmp_comparison hc
  refine ⟨p', hp', eq.symm, unsolved.trans unsolved'.symm, ?_⟩
  rw [own, own']
  exact (c.levels_split search _).forall₂_of_mem_iff (c.levels_split search _)
    fun _ => (synonymous_someGoal same).mem_models_iff

theorem alike_start (regular : ∀ agent ∈ agents, agent.Regular)
    (h : classesOf agents search = .ok classes) (h' : classesOf agents' search = .ok classes') :
    (Pursuit.start agents classes).Alike (Pursuit.start agents' classes') where
  announcement := rfl
  verdicts := rfl
  forth := exists_alike_start same regular h h'
  back p' hp' := by
    have regular' : ∀ agent ∈ agents', agent.Regular :=
      fun agent h => regular agent ((same agent).mpr h)
    obtain ⟨p, hp, alike⟩ :=
      exists_alike_start (fun agent => (same agent).symm) regular' h' h p' hp'
    exact ⟨p, hp, alike.symm⟩

/-- **A widening search that suits the agents finds the same** in any order. -/
theorem exists_widened_eq_ok (regular : ∀ agent ∈ agents, agent.Regular)
    (suits : Suits agents search) :
    ∃ found, widened search agents = .ok found ∧ widened search agents' = .ok found := by
  obtain ⟨classes, hclasses⟩ := suits_iff.mp suits
  obtain ⟨classes', hclasses'⟩ := suits_iff.mp ((suits_congr same).mp suits)
  have alike := alike_start same regular hclasses hclasses'
  obtain ⟨found, ok⟩ := Pursuit.outcome_eq_ok (judgeable_start hclasses)
  refine ⟨found, bind_eq_ok_iff.mpr ⟨classes, hclasses, ok⟩,
    bind_eq_ok_iff.mpr ⟨classes', hclasses', ?_⟩⟩
  rw [← alike.outcome_eq (judgeable_start hclasses), ok]

end SameAgents

end Announcement

/-- **The order of the agents does not matter**, nor how often each is listed. Take agents that
revise by consistency, by any total preorder or behind any trust, with goals that can be built. For
two lists of the same agents the exhaustive search finds the same announcement or none. So does a
widening search that suits the agents, and one that does not fails for both lists. The refinements
found are equivalent, or there is none for either list. -/
theorem resolve_of_mem_iff {agents agents' : List Agent}
    (same : ∀ agent, agent ∈ agents ↔ agent ∈ agents')
    (regular : ∀ agent ∈ agents, agent.Regular) :
    Strategy.exhaustion.resolve agents = Strategy.exhaustion.resolve agents' ∧
    (∀ search : Widening, Announcement.Suits agents search →
      ∃ found, (Strategy.widening search).resolve agents = .ok found ∧
        (Strategy.widening search).resolve agents' = .ok found) ∧
    (∀ search : Widening, ¬Announcement.Suits agents search →
      (∃ e : Error, e.IsConfiguration ∧ (Strategy.widening search).resolve agents = .error e) ∧
      ∃ e : Error, e.IsConfiguration ∧ (Strategy.widening search).resolve agents' = .error e) ∧
    ∃ found found', Strategy.refinement.resolve agents = .ok found ∧
      Strategy.refinement.resolve agents' = .ok found' ∧
      Option.Rel Formula.Equivalent found found' := by
  simp only [Strategy.resolve_eq]
  refine ⟨Announcement.ending_exhaustion_congr same,
    fun _ => Announcement.exists_widened_eq_ok same regular, fun _ unsuited => ⟨?_, ?_⟩,
    _, _, rfl, rfl, Announcement.found_refinements_congr same regular⟩
  · exact Announcement.exists_widened_eq_error unsuited
  · exact Announcement.exists_widened_eq_error ((Announcement.suits_congr same).not.mp unsuited)

/-- Two agents with different goals, and the second one listed before and after the first. Both
widening searches suit them, and the disjunctions of the goals have them in another order. -/
theorem resolve_of_mem_iff_two_agents :
    ∃ agents agents' : List Agent,
      agents = [⟨{.var "p"}, .not (.var "q"), .nearest (.layered [.var "r"])⟩,
        ⟨{.var "q"}, .not (.var "p"), .nearest .hamming⟩] ∧
      agents' = [⟨{.var "q"}, .not (.var "p"), .nearest .hamming⟩,
        ⟨{.var "p"}, .not (.var "q"), .nearest (.layered [.var "r"])⟩,
        ⟨{.var "q"}, .not (.var "p"), .nearest .hamming⟩] ∧
      (∀ agent, agent ∈ agents ↔ agent ∈ agents') ∧ (∀ agent ∈ agents, agent.Regular) ∧
      Announcement.Suits agents .byDistance ∧
      (∃ found, (Strategy.widening .byDistance).resolve agents = .ok found ∧
        (Strategy.widening .byDistance).resolve agents' = .ok found) ∧
      (Formula.join .or [.not (.var "q"), .not (.var "p")]).Equivalent
        (.join .or [.not (.var "p"), .not (.var "q")]) := by
  have same : ∀ agent : Agent,
      agent ∈ [(⟨{.var "p"}, .not (.var "q"), .nearest (.layered [.var "r"])⟩ : Agent),
        ⟨{.var "q"}, .not (.var "p"), .nearest .hamming⟩] ↔
      agent ∈ [(⟨{.var "q"}, .not (.var "p"), .nearest .hamming⟩ : Agent),
        ⟨{.var "p"}, .not (.var "q"), .nearest (.layered [.var "r"])⟩,
        ⟨{.var "q"}, .not (.var "p"), .nearest .hamming⟩] := by
    intro agent
    simp only [List.mem_cons, List.not_mem_nil, or_false]
    tauto
  have regular : ∀ agent ∈ [
      (⟨{.var "p"}, .not (.var "q"), .nearest (.layered [.var "r"])⟩ : Agent),
      ⟨{.var "q"}, .not (.var "p"), .nearest .hamming⟩], agent.Regular := by
    refine List.forall_mem_cons.mpr ⟨⟨.not (.var "q"), ?_⟩,
      List.forall_mem_singleton.mpr ⟨.not (.var "p"), ?_⟩⟩
    · exact .distance _ _
    · exact .distance _ _
  have suits : Announcement.Suits
      [⟨{.var "p"}, .not (.var "q"), .nearest (.layered [.var "r"])⟩,
        ⟨{.var "q"}, .not (.var "p"), .nearest .hamming⟩] .byDistance :=
    List.forall_mem_cons.mpr ⟨⟨_, rfl⟩, List.forall_mem_singleton.mpr ⟨_, rfl⟩⟩
  obtain ⟨-, widening, -, found, found', first, second, related⟩ :=
    resolve_of_mem_iff same regular
  refine ⟨_, _, rfl, rfl, same, regular, suits, widening .byDistance suits, ?_⟩
  have known : Except.ok found = .ok (some (.join .or [.not (.var "q"), .not (.var "p")])) :=
    first.symm.trans (by decide +kernel)
  have known' : Except.ok found' = .ok (some (.join .or [.not (.var "p"), .not (.var "q")])) :=
    second.symm.trans (by decide +kernel)
  cases known
  cases known'
  cases related with
  | some equivalent => exact equivalent

end BeliefRevision
