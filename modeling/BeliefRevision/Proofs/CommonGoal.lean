import BeliefRevision.Proofs.AgentOrder
import BeliefRevision.Proofs.Prefixes

/-!
# Agents with a common goal, and with one out of reach

Agents that revise by nearness are solved by any satisfiable sentence that entails their goal
(`Agent.isSolvedBy_of_entails`), and by no sentence that is satisfiable if their goal is not, or the
other way round (`Agent.isSatisfiable_eq_of_isSolvedBy`). So if the goals of all agents are the same
and can be met, the first round of a widening search accepts the assignments closest to some agent
and rejects nothing, which solves all agents at once. If some goal cannot be met, no round does.

* `Comparison.Levels.mem_head?_iff`: the first level consists of the minimal members of a list.
* `Announcement.mem_given_of_round_start`: what the first round finds out about a common goal.
* `Announcement.widened_eq_none`: nothing is found if a goal is out of reach.
* **`widening_common_goal`**: what widening searches find for such agents.
-/

namespace BeliefRevision

/-! ## Closest assignments -/

/-- **The first level** consists of the minimal members of the list. -/
theorem Comparison.Levels.mem_head?_iff {cmp : Comparison} [Std.TransCmp cmp]
    {as : List Assignment} {classes : List (List Assignment)} {a : Assignment}
    (h : cmp.Levels as classes) :
    (∃ first ∈ classes.head?, a ∈ first) ↔ a ∈ as ∧ cmp.Minimal as a := by
  constructor
  · rintro ⟨first, head, ha⟩
    obtain ⟨rest, rfl⟩ := List.head?_eq_some_iff.mp head
    refine ⟨h.mem List.mem_cons_self ha, fun b hb lt => ?_⟩
    obtain ⟨cls, hcls, hb⟩ := h.covers b hb
    rcases List.mem_cons.mp hcls with rfl | later
    · rw [h.eq_filter cls hcls a ha, List.mem_filter, decide_eq_true_iff] at hb
      rw [Std.OrientedCmp.eq_symm hb.2] at lt
      cases lt
    · have closer := (List.pairwise_cons.mp h.closer).1 cls later a ha b hb
      exact Std.OrientedCmp.not_lt_of_lt closer lt
  · rintro ⟨ha, minimal⟩
    obtain ⟨cls, hcls, ha⟩ := h.covers a ha
    obtain ⟨first, rest, rfl⟩ := List.exists_cons_of_ne_nil (List.ne_nil_of_mem hcls)
    refine ⟨first, rfl, ?_⟩
    rcases List.mem_cons.mp hcls with rfl | later
    · exact ha
    · obtain ⟨b, hb⟩ := List.exists_mem_of_ne_nil first (h.nonempty first List.mem_cons_self)
      have closer := (List.pairwise_cons.mp h.closer).1 cls later b hb a ha
      exact absurd closer (minimal b (h.mem List.mem_cons_self hb))

theorem Comparator.split_nil (search : Widening) (c : Comparator) : c.split search [] = [] := by
  cases search <;> cases c <;> rfl

theorem Formula.IsOver.equivalent_of_evaluate {p q : Formula} {vs : Vocabulary} (hp : p.IsOver vs)
    (hq : q.IsOver vs)
    (h : ∀ x : Assignment, x.IsOn vs → (p.evaluate x = .ok true ↔ q.evaluate x = .ok true)) :
    p.Equivalent q := by
  refine equivalent_iff.mpr fun f => Bool.eq_iff_iff.mpr ?_
  have same := h (f.on vs) (Assignment.isOn_on f vs)
  rwa [hp.evaluate_on, hq.evaluate_on, Except.ok.injEq, Except.ok.injEq] at same

/-! ## Agents that revise by nearness -/

namespace Agent

variable {agent : Agent} {c : Comparator} {s : Formula} {vs : Vocabulary} {x : Assignment}

/-- The assignment on the vocabulary meets the agent's goal, and none that does is closer. -/
def Closest (agent : Agent) (vs : Vocabulary) (x : Assignment) : Prop :=
  ∃ c, agent.revision.comparator? agent.initial = some c ∧ agent.goal.evaluate x = .ok true ∧
    ∀ y : Assignment, y.IsOn vs → agent.goal.evaluate y = .ok true → c.comparison y x ≠ .lt

/-- An agent with a comparator revises by nearness, and compares as its comparator does. -/
theorem exists_nearest_of_comparator? (h : agent.revision.comparator? agent.initial = some c) :
    ∃ p, agent.revision = .nearest p ∧ c.comparison = p.comparison agent.initial := by
  cases hr : agent.revision with
  | nearest p =>
    rw [hr] at h
    cases h
    exact ⟨p, rfl, (Comparator.judges_comparison p agent.initial).comparison_eq⟩
  | consistency =>
    rw [hr] at h
    cases h
  | trusting t r =>
    rw [hr] at h
    cases h

theorem formula_hear_of_nearest {p : Preference} (h : agent.revision = .nearest p) (s : Formula) :
    (agent.hear s).formula = .ofAssignments (Revision.nearestOf p agent.initial s) := by
  rw [hear, h, Revision.formula_revise_nearest]

/-- What can be true can be believed, and nothing else. -/
theorem isSatisfiable_hear (h : agent.revision.comparator? agent.initial = some c) (s : Formula) :
    (agent.hear s).formula.isSatisfiable = s.isSatisfiable := by
  obtain ⟨p, hp, -⟩ := exists_nearest_of_comparator? h
  rw [formula_hear_of_nearest hp, Bool.eq_iff_iff, Revision.isSatisfiable_ofAssignments, Ne,
    Revision.nearestOf_eq_nil_iff, Bool.not_eq_false]

/-- **Satisfiable sentences that entail the goal solve the agent.** -/
theorem isSolvedBy_of_entails (h : agent.revision.comparator? agent.initial = some c)
    [Std.TransCmp c.comparison] (satisfiable : s.isSatisfiable = true)
    (entails : s.entails agent.goal = true) : agent.isSolvedBy s = true := by
  obtain ⟨p, hp, same⟩ := exists_nearest_of_comparator? h
  have preorder : Std.TransCmp (p.comparison agent.initial) := same ▸ inferInstance
  have goal : agent.goal.isSatisfiable = true := by
    obtain ⟨f, hf⟩ := Formula.isSatisfiable_iff.mp satisfiable
    exact Formula.isSatisfiable_iff.mpr ⟨f, Formula.entails_iff.mp entails f hf⟩
  have kept : (agent.hear s).formula.entails s = true := by
    rw [formula_hear_of_nearest hp]
    exact Revision.entails_of_nearestOf
  rw [isSolvedBy, isReachedBy, if_pos goal, isSatisfiable_hear h, satisfiable, Bool.true_and]
  exact Formula.entails_trans kept entails

/-- **Only sentences as satisfiable as the goal solve the agent.** -/
theorem isSatisfiable_eq_of_isSolvedBy (h : agent.revision.comparator? agent.initial = some c)
    (solved : agent.isSolvedBy s = true) : s.isSatisfiable = agent.goal.isSatisfiable := by
  rw [isSolvedBy, isReachedBy] at solved
  split at solved
  · next goal =>
    rw [Bool.and_eq_true, isSatisfiable_hear h] at solved
    rw [goal, solved.1]
  · next goal =>
    rw [Formula.isContradiction, isSatisfiable_hear h, Bool.not_eq_true'] at solved
    rw [solved, Bool.eq_false_iff.mpr goal]

end Agent

theorem Pursuit.isDone_assess_iff {s : Pursuit} :
    s.assess.isDone = true ↔ ∀ agent ∈ s.agents, agent.isSolvedBy s.announcement = true := by
  rw [isDone, prospects_assess, List.all_map, List.all_eq_true, agents, List.forall_mem_map]
  rfl

/-! ## Assignments that meet some goal -/

namespace Announcement

variable {agents : List Agent} {search : Widening} {classes : List (List (List Assignment))}
  {agent : Agent} {p : Prospect} {x : Assignment} {a : Formula}

theorem evaluate_goal_iff (hagent : agent ∈ agents) (hx : x.IsOn (Agent.jointVocabulary agents)) :
    agent.goal.evaluate x = .ok true ↔ agent.goal.holds x.valuation = true :=
  (isOver_goal hagent).evaluate_eq_true_iff hx

theorem mem_models_someGoal : x ∈ (someGoal agents).models ↔
    x.IsOn (Agent.jointVocabulary agents) ∧ ∃ agent ∈ agents, agent.goal.evaluate x = .ok true := by
  have on : x.IsOn (someGoal agents).vocabulary ↔ x.IsOn (Agent.jointVocabulary agents) :=
    forall_congr' fun v => by rw [Formula.mem_vocabulary, mem_occurrences_someGoal]
  rw [Formula.mem_models, Formula.IsModel, on]
  refine and_congr_right fun hx => ?_
  have isOver : (someGoal agents).IsOver (Agent.jointVocabulary agents) :=
    fun v hv => mem_occurrences_someGoal.mp hv
  rw [isOver.evaluate_eq_true_iff hx, someGoal, Formula.holds_and, Formula.holds_closure,
    and_iff_left rfl, Formula.holds_disjunction]
  simp only [List.mem_map, exists_exists_and_eq_and]
  exact exists_congr fun agent => and_congr_right fun h => (evaluate_goal_iff h hx).symm

theorem models_someGoal_eq_nil_iff : (someGoal agents).models = [] ↔
    ∀ agent ∈ agents, agent.goal.isSatisfiable = false := by
  simp only [List.eq_nil_iff_forall_not_mem, mem_models_someGoal, ← Bool.not_eq_true,
    Formula.isSatisfiable_iff]
  constructor
  · rintro none agent hagent ⟨f, hf⟩
    refine none (f.on (Agent.jointVocabulary agents)) ⟨Assignment.isOn_on f _, agent, hagent, ?_⟩
    rw [(isOver_goal hagent).evaluate_on, hf]
  · rintro unsatisfiable x ⟨hx, agent, hagent, met⟩
    exact unsatisfiable agent hagent ⟨_, (evaluate_goal_iff hagent hx).mp met⟩

theorem Suits.exists_comparator (suits : Suits agents search) (hagent : agent ∈ agents) :
    ∃ c, agent.revision.comparator? agent.initial = some c := by
  cases search with
  | byDistance =>
    obtain ⟨c, hc⟩ := suits agent hagent
    exact ⟨_, hc⟩
  | byOrder => exact suits agent hagent

theorem widened_eq_outcome (h : classesOf agents search = .ok classes) :
    widened search agents = (Pursuit.start agents classes).outcome := by
  rw [widened, h]
  rfl

theorem exists_mem_start (h : classesOf agents search = .ok classes) (hagent : agent ∈ agents) :
    ∃ p ∈ (Pursuit.start agents classes).prospects, p.agent = agent := by
  rw [← Pursuit.agents_start (classesOf_eq_ok h).length_eq] at hagent
  exact List.mem_map.mp hagent

/-! ## A goal out of reach -/

/-- If no goal can be met, there is nothing to take in. -/
theorem widened_eq_none_of_unsatisfiable (nonempty : agents ≠ [])
    (h : classesOf agents search = .ok classes)
    (unsatisfiable : ∀ agent ∈ agents, agent.goal.isSatisfiable = false) :
    widened search agents = .ok none := by
  rw [widened_eq_outcome h]
  refine Pursuit.outcome_of_round_eq_none (not_isDone_start nonempty h) ?_
  rw [Pursuit.round_eq_none_iff (judgeable_start h)]
  obtain ⟨agent, hagent⟩ := List.exists_mem_of_ne_nil agents nonempty
  obtain ⟨p, hp, -⟩ := exists_mem_start h hagent
  obtain ⟨-, unsolved, c, -, own⟩ := exists_split_of_mem_start h hp
  refine ⟨p, hp, unsolved, ?_⟩
  rw [own, models_someGoal_eq_nil_iff.mpr unsatisfiable, Comparator.split_nil]

/-- **A goal out of reach leaves nothing to announce**, whatever the others are: what solves its
agent is unsatisfiable, so it can only solve agents whose goals are unsatisfiable as well. -/
theorem widened_eq_none (nonempty : agents ≠ []) (suits : Suits agents search)
    (unreachable : ∃ agent ∈ agents, agent.goal.isSatisfiable = false) :
    widened search agents = .ok none := by
  obtain ⟨classes, made⟩ := suits_iff.mp suits
  obtain ⟨_ | a, ends⟩ := widened_eq_ok made
  · exact ends
  · have same (agent : Agent) (hagent : agent ∈ agents) :
        a.isSatisfiable = agent.goal.isSatisfiable := by
      obtain ⟨c, hc⟩ := suits.exists_comparator hagent
      exact agent.isSatisfiable_eq_of_isSolvedBy hc
        (List.all_eq_true.mp (solves_of_widened ends) agent hagent)
    obtain ⟨agent, hagent, unsatisfiable⟩ := unreachable
    refine widened_eq_none_of_unsatisfiable nonempty made fun other hother => ?_
    rw [← same other hother, same agent hagent, unsatisfiable]

/-! ## A common goal -/

/-- The sentence is about the variables of all agents, and true under the assignments that are
closest for some agent. -/
structure TellsClosest (agents : List Agent) (a : Formula) : Prop where
  isOver : a.IsOver (Agent.jointVocabulary agents)
  evaluate_iff : ∀ x : Assignment, x.IsOn (Agent.jointVocabulary agents) →
    (a.evaluate x = .ok true ↔
      ∃ agent ∈ agents, agent.Closest (Agent.jointVocabulary agents) x)

theorem TellsClosest.isSatisfiable (h : TellsClosest agents a)
    (hx : x.IsOn (Agent.jointVocabulary agents)) (hagent : agent ∈ agents)
    (closest : agent.Closest (Agent.jointVocabulary agents) x) : a.isSatisfiable = true := by
  have value := (h.evaluate_iff x hx).mpr ⟨agent, hagent, closest⟩
  exact Formula.isSatisfiable_iff.mpr ⟨_, (h.isOver.evaluate_eq_true_iff hx).mp value⟩

section FirstRound

variable (preorders : ∀ agent ∈ agents, ∀ c,
    agent.revision.comparator? agent.initial = some c → Std.TransCmp c.comparison)
  (made : classesOf agents search = .ok classes)

include preorders made

/-- At the start an agent has before it the levels of the assignments that meet some goal. -/
theorem exists_levels_of_mem_start (hp : p ∈ (Pursuit.start agents classes).prospects) :
    p.agent ∈ agents ∧ p.solved = false ∧
      ∃ c, p.agent.revision.comparator? p.agent.initial = some c ∧ Std.TransCmp c.comparison ∧
        c.comparison.Levels (someGoal agents).models p.classes := by
  obtain ⟨hagent, unsolved, c, hc, own⟩ := exists_split_of_mem_start made hp
  have preorder := preorders p.agent hagent c hc
  exact ⟨hagent, unsolved, c, hc, preorder, own ▸ c.levels_split search _⟩

/-- An agent whose goal can be met has something to take in first. -/
theorem exists_takesIn_start (satisfiable : ∀ agent ∈ agents, agent.goal.isSatisfiable = true)
    (hp : p ∈ (Pursuit.start agents classes).prospects) : ∃ x, p.TakesIn x := by
  obtain ⟨hagent, unsolved, c, -, -, levels⟩ := exists_levels_of_mem_start preorders made hp
  have some : (someGoal agents).models ≠ [] := fun none => by
    cases (satisfiable p.agent hagent).symm.trans
      (models_someGoal_eq_nil_iff.mp none p.agent hagent)
  obtain ⟨a, ha⟩ := List.exists_mem_of_ne_nil _ some
  obtain ⟨cls, hcls, -⟩ := levels.covers a ha
  obtain ⟨first, rest, eq⟩ := List.exists_cons_of_ne_nil (List.ne_nil_of_mem hcls)
  obtain ⟨x, hx⟩ :=
    List.exists_mem_of_ne_nil first (levels.nonempty first (eq ▸ List.mem_cons_self))
  exact ⟨x, unsolved, first, by rw [eq]; rfl, hx⟩

/-- If all goals can be met, there is a first round. -/
theorem exists_round_start (satisfiable : ∀ agent ∈ agents, agent.goal.isSatisfiable = true) :
    ∃ s, (Pursuit.start agents classes).round = .ok (some s) := by
  obtain ⟨_ | s, hr⟩ := Pursuit.round_eq_ok (judgeable_start made)
  · obtain ⟨p, hp, -, none⟩ := (Pursuit.round_eq_none_iff (judgeable_start made)).mp hr
    obtain ⟨x, -, first, head, -⟩ := exists_takesIn_start preorders made satisfiable hp
    rw [none] at head
    cases head
  · exact ⟨s, hr⟩

end FirstRound

section Alike

variable (alike : ∀ agent ∈ agents, ∀ other ∈ agents, agent.goal.Equivalent other.goal)

include alike

/-- Meeting the goal of one agent is meeting some goal. -/
theorem mem_models_iff_of_alike (hagent : agent ∈ agents) : x ∈ (someGoal agents).models ↔
    x.IsOn (Agent.jointVocabulary agents) ∧ agent.goal.evaluate x = .ok true := by
  rw [mem_models_someGoal]
  refine and_congr_right fun hx => ⟨?_, fun met => ⟨agent, hagent, met⟩⟩
  rintro ⟨other, hother, met⟩
  rw [evaluate_goal_iff hother hx] at met
  rw [evaluate_goal_iff hagent hx, Formula.equivalent_iff.mp (alike agent hagent other hother), met]

/-- A sentence about the closest assignments entails every goal. -/
theorem TellsClosest.entails_goal (h : TellsClosest agents a) (hagent : agent ∈ agents) :
    a.entails agent.goal = true := by
  refine Formula.entails_iff.mpr fun f hf => ?_
  have value : a.evaluate (f.on (Agent.jointVocabulary agents)) = .ok true := by
    rw [h.isOver.evaluate_on, hf]
  obtain ⟨other, hother, -, -, met, -⟩ := (h.evaluate_iff _ (Assignment.isOn_on f _)).mp value
  rw [(isOver_goal hother).evaluate_on, Except.ok.injEq] at met
  rw [Formula.equivalent_iff.mp (alike agent hagent other hother), met]

variable (preorders : ∀ agent ∈ agents, ∀ c,
    agent.revision.comparator? agent.initial = some c → Std.TransCmp c.comparison)
  (made : classesOf agents search = .ok classes)

include preorders made

/-- **What an agent takes in first** are the assignments closest to its beliefs. -/
theorem takesIn_start_iff (hp : p ∈ (Pursuit.start agents classes).prospects) :
    p.TakesIn x ↔ x.IsOn (Agent.jointVocabulary agents) ∧
      p.agent.Closest (Agent.jointVocabulary agents) x := by
  obtain ⟨hagent, unsolved, c, hc, _, levels⟩ := exists_levels_of_mem_start preorders made hp
  rw [Prospect.TakesIn, and_iff_right unsolved, levels.mem_head?_iff,
    mem_models_iff_of_alike alike hagent, Agent.Closest, and_assoc]
  refine and_congr_right fun hx => ?_
  simp only [hc, Option.some.injEq, exists_eq_left', Comparison.Minimal,
    mem_models_iff_of_alike alike hagent, and_imp]

/-- **What the first round finds out**: the assignments closest to some agent are accepted, and
none is rejected. -/
theorem mem_given_of_round_start {s : Pursuit}
    (hr : (Pursuit.start agents classes).round = .ok (some s)) {y : Bool} :
    x ∈ s.verdicts.given y ↔ y = true ∧ x.IsOn (Agent.jointVocabulary agents) ∧
      ∃ agent ∈ agents, agent.Closest (Agent.jointVocabulary agents) x := by
  have fresh : x ∉ (Pursuit.start agents classes).verdicts.given y := by
    cases y <;> exact Std.ExtTreeSet.not_mem_empty
  rw [(Pursuit.widens_of_round hr).1.mem_given, or_iff_right fresh]
  constructor
  · rintro ⟨p, hp, takes, value⟩
    obtain ⟨on, closest⟩ := (takesIn_start_iff alike preorders made hp).mp takes
    obtain ⟨c, -, met, -⟩ := id closest
    exact ⟨Except.ok.inj (value.symm.trans met), on, p.agent, (Pursuit.mem_start hp).1, closest⟩
  · rintro ⟨rfl, on, agent, hagent, closest⟩
    obtain ⟨p, hp, rfl⟩ := exists_mem_start made hagent
    obtain ⟨c, -, met, -⟩ := id closest
    exact ⟨p, hp, (takesIn_start_iff alike preorders made hp).mpr ⟨on, closest⟩, met⟩

theorem tellsClosest_of_round_start {s : Pursuit}
    (hr : (Pursuit.start agents classes).round = .ok (some s)) :
    TellsClosest agents s.announcement := by
  have on : ∀ y, ∀ x ∈ s.verdicts.given y, x.IsOn (Agent.jointVocabulary agents) :=
    fun y x hx => ((mem_given_of_round_start alike preorders made hr).mp hx).2.1
  rw [(Pursuit.widens_of_round hr).2]
  refine ⟨(Verdicts.isFull_announcement on).isOver, fun x hx => ?_⟩
  rw [Verdicts.evaluate_announcement on hx, mem_given_of_round_start alike preorders made hr,
    mem_given_of_round_start alike preorders made hr]
  simp [hx]

/-- **A common goal is reached in the first round**, by the assignments closest to some agent. -/
theorem exists_widened_of_alike (nonempty : agents ≠ [])
    (satisfiable : ∀ agent ∈ agents, agent.goal.isSatisfiable = true) :
    ∃ a, widened search agents = .ok (some a) ∧ TellsClosest agents a := by
  obtain ⟨s, hr⟩ := exists_round_start preorders made satisfiable
  have tells := tellsClosest_of_round_start alike preorders made hr
  have possible : s.announcement.isSatisfiable = true := by
    obtain ⟨agent, hagent⟩ := List.exists_mem_of_ne_nil agents nonempty
    obtain ⟨p, hp, rfl⟩ := exists_mem_start made hagent
    obtain ⟨x, takes⟩ := exists_takesIn_start preorders made satisfiable hp
    obtain ⟨hx, closest⟩ := (takesIn_start_iff alike preorders made hp).mp takes
    exact tells.isSatisfiable hx hagent closest
  have done : s.assess.isDone = true := by
    rw [Pursuit.isDone_assess_iff, Pursuit.agents_round hr,
      Pursuit.agents_start (classesOf_eq_ok made).length_eq]
    intro agent hagent
    obtain ⟨p, hp, rfl⟩ := exists_mem_start made hagent
    obtain ⟨-, -, c, hc, _, -⟩ := exists_levels_of_mem_start preorders made hp
    exact p.agent.isSolvedBy_of_entails hc possible (tells.entails_goal alike hagent)
  refine ⟨s.announcement, ?_, tells⟩
  rw [widened_eq_outcome made, Pursuit.outcome_of_round_eq_some (not_isDone_start nonempty made) hr,
    Pursuit.outcome_of_isDone done]
  rfl

end Alike

theorem jointVocabulary_singleton (agent : Agent) :
    Agent.jointVocabulary [agent] = Revision.scope agent.initial agent.goal := by
  refine Std.ExtTreeSet.ext_mem fun v => ?_
  rw [mem_jointVocabulary]
  simp only [List.mem_singleton, exists_eq_left]
  rfl

/-- What a single agent is told is what it would believe if it were told its goal. -/
theorem TellsClosest.equivalent_hear {c : Comparator} [Std.TransCmp c.comparison]
    (h : TellsClosest [agent] a) (hc : agent.revision.comparator? agent.initial = some c) :
    a.Equivalent (agent.hear agent.goal).formula := by
  obtain ⟨p, hp, same⟩ := Agent.exists_nearest_of_comparator? hc
  have preorder : Std.TransCmp (p.comparison agent.initial) := same ▸ inferInstance
  obtain ⟨isOver, evaluate_iff⟩ := h
  simp only [List.mem_singleton, exists_eq_left] at evaluate_iff
  rw [jointVocabulary_singleton] at isOver evaluate_iff
  have on : ∀ x ∈ Revision.nearestOf p agent.initial agent.goal,
      x.IsOn (Revision.scope agent.initial agent.goal) :=
    fun x hx => (Revision.mem_nearestOf.mp hx).1.1
  rw [Agent.formula_hear_of_nearest hp]
  refine isOver.equivalent_of_evaluate (Revision.isOver_ofAssignments on) fun x hx => ?_
  rw [evaluate_iff x hx, Revision.evaluate_ofAssignments on hx, Revision.mem_nearestOf, and_assoc,
    and_iff_right hx, Agent.Closest, ← same]
  simp only [hc, Option.some.injEq, exists_eq_left']

end Announcement

/-- **Widening searches for a common goal and for one out of reach.** Take agents that a widening
search suits, and whose comparators are total preorders. If their goals are satisfiable and say the
same, the search finds an announcement. Among the assignments to the variables of all agents, it is
true under those that are closest, of all that meet the goals, to the beliefs of some agent. So a
single agent is told what it would believe if it were told its goal. If a goal is unsatisfiable, the
search finds nothing, whatever the other goals are. -/
theorem widening_common_goal {agents : List Agent} {search : Widening} (nonempty : agents ≠ [])
    (suits : Announcement.Suits agents search)
    (preorders : ∀ agent ∈ agents, ∀ c, agent.revision.comparator? agent.initial = some c →
      Std.TransCmp c.comparison) :
    ((∀ agent ∈ agents, agent.goal.isSatisfiable = true) →
      (∀ agent ∈ agents, ∀ other ∈ agents, agent.goal.Equivalent other.goal) →
        ∃ a, (Strategy.widening search).resolve agents = .ok (some a) ∧
          (∀ x : Assignment, x.IsOn (Agent.jointVocabulary agents) → (a.evaluate x = .ok true ↔
            ∃ agent ∈ agents, agent.Closest (Agent.jointVocabulary agents) x)) ∧
          ∀ agent, agents = [agent] → a.Equivalent (agent.hear agent.goal).formula) ∧
    ((∃ agent ∈ agents, agent.goal.isSatisfiable = false) →
      (Strategy.widening search).resolve agents = .ok none) := by
  rw [Strategy.resolve_eq]
  refine ⟨fun satisfiable alike => ?_, Announcement.widened_eq_none nonempty suits⟩
  obtain ⟨classes, made⟩ := Announcement.suits_iff.mp suits
  obtain ⟨a, found, tells⟩ :=
    Announcement.exists_widened_of_alike alike preorders made nonempty satisfiable
  refine ⟨a, found, tells.evaluate_iff, ?_⟩
  rintro agent rfl
  obtain ⟨c, hc⟩ := suits.exists_comparator List.mem_cons_self
  have preorder := preorders agent List.mem_cons_self c hc
  exact tells.equivalent_hear hc

/-- Two agents whose common goal is written in two ways, and who judge nearness in two ways; the
second one alone; and both beside a third one whose goal cannot be met. -/
theorem widening_common_goal_two_agents :
    ∃ agent agent' impossible : Agent,
      agent = ⟨{.not (.var "p")}, .var "p", .nearest .hamming⟩ ∧
      agent' = ⟨{.var "q"}, .not (.not (.var "p")), .nearest .fewestTrue⟩ ∧
      impossible = ⟨∅, .bot, .nearest .hamming⟩ ∧
      Announcement.Suits [agent, agent', impossible] .byOrder ∧
      (∀ a ∈ [agent, agent', impossible], ∀ c,
        a.revision.comparator? a.initial = some c → Std.TransCmp c.comparison) ∧
      (∃ a, (Strategy.widening .byOrder).resolve [agent, agent'] = .ok (some a) ∧
        ∀ x : Assignment, x.IsOn (Agent.jointVocabulary [agent, agent']) →
          (a.evaluate x = .ok true ↔ ∃ b ∈ [agent, agent'],
            b.Closest (Agent.jointVocabulary [agent, agent']) x)) ∧
      (∃ a, (Strategy.widening .byOrder).resolve [agent'] = .ok (some a) ∧
        a.Equivalent (agent'.hear agent'.goal).formula) ∧
      (Strategy.widening .byOrder).resolve [agent, agent', impossible] = .ok none := by
  have fewestTrue : Revision.Preordered (.nearest .fewestTrue) := .nearest fun _ =>
    inferInstanceAs (Std.TransCmp (compareOn fun a : Assignment =>
      (a.toList.filter Prod.snd).length))
  refine ⟨_, _, _, rfl, rfl, rfl, ?_⟩
  generalize hagent : (⟨{.not (.var "p")}, .var "p", .nearest .hamming⟩ : Agent) = agent
  generalize hagent' :
    (⟨{.var "q"}, .not (.not (.var "p")), .nearest .fewestTrue⟩ : Agent) = agent'
  generalize himpossible : (⟨∅, .bot, .nearest .hamming⟩ : Agent) = impossible
  have suits : Announcement.Suits [agent, agent', impossible] .byOrder := by
    subst hagent hagent' himpossible
    exact List.forall_mem_cons.mpr ⟨⟨_, rfl⟩, List.forall_mem_cons.mpr
      ⟨⟨_, rfl⟩, List.forall_mem_singleton.mpr ⟨_, rfl⟩⟩⟩
  have preordered : ∀ a ∈ [agent, agent', impossible], a.revision.Preordered := by
    subst hagent hagent' himpossible
    exact List.forall_mem_cons.mpr ⟨.distance _ _, List.forall_mem_cons.mpr
      ⟨fewestTrue, List.forall_mem_singleton.mpr (.distance _ _)⟩⟩
  have preorders : ∀ a ∈ [agent, agent', impossible], ∀ c,
      a.revision.comparator? a.initial = some c → Std.TransCmp c.comparison :=
    fun a ha c hc => (preordered a ha).transCmp_comparison hc
  have goal : ∀ a ∈ [agent, agent'], ∀ f : Valuation, a.goal.holds f = f "p" := by
    subst hagent hagent'
    refine List.forall_mem_cons.mpr ⟨fun f => rfl, List.forall_mem_singleton.mpr fun f => ?_⟩
    exact Bool.not_not _
  have satisfiable : ∀ a ∈ [agent, agent'], a.goal.isSatisfiable = true := fun a ha =>
    Formula.isSatisfiable_iff.mpr ⟨fun _ => true, goal a ha _⟩
  have alike : ∀ a ∈ [agent, agent'], ∀ b ∈ [agent, agent'], a.goal.Equivalent b.goal :=
    fun a ha b hb => Formula.equivalent_iff.mpr fun f => (goal a ha f).trans (goal b hb f).symm
  have both : [agent, agent'] ⊆ [agent, agent', impossible] := by simp
  have second : [agent'] ⊆ [agent, agent', impossible] := by simp
  have alone : [agent'] ⊆ [agent, agent'] := by simp
  have suitsBoth : Announcement.Suits [agent, agent'] .byOrder := fun a ha => suits a (both ha)
  have suitsSecond : Announcement.Suits [agent'] .byOrder := fun a ha => suits a (second ha)
  refine ⟨suits, preorders, ?_, ?_, ?_⟩
  · obtain ⟨a, found, closest, -⟩ := (widening_common_goal (List.cons_ne_nil _ _) suitsBoth
      fun a ha => preorders a (both ha)).1 satisfiable alike
    exact ⟨a, found, closest⟩
  · obtain ⟨a, found, -, single⟩ := (widening_common_goal (List.cons_ne_nil _ _) suitsSecond
      fun a ha => preorders a (second ha)).1 (fun a ha => satisfiable a (alone ha))
        fun a ha b hb => alike a (alone ha) b (alone hb)
    exact ⟨a, found, single agent' rfl⟩
  · refine (widening_common_goal (List.cons_ne_nil _ _) suits preorders).2
      ⟨impossible, by simp, ?_⟩
    subst himpossible
    decide +kernel

end BeliefRevision
