import BeliefRevision.Proofs.Query
import BeliefRevision.Proofs.Widening

/-!
# Failures in silence

Where nothing raises the signal, a strategy fails only for agents that it is not made for. The
rounds of a widening search evaluate goals, and evaluation can fail, but not under the assignments
that the agents take in: these give values to the variables of all agents (`Prospect.Judgeable`, an
invariant of the rounds). What is left are the failures to find comparators.

* **`Strategy.isConfiguration_of_ending`**: every failure in silence is of this kind.
-/

namespace BeliefRevision

/-! ## Rounds do not fail -/

/-- The goal of an agent has a value under all assignments that the agent can still take in. -/
def Prospect.Judgeable (p : Prospect) : Prop :=
  ∀ cls ∈ p.classes, ∀ a ∈ cls, ∃ b, p.agent.goal.evaluate a = .ok b

theorem Verdicts.judge_eq_ok {goal : Formula} {as : List Assignment}
    (h : ∀ a ∈ as, ∃ b, goal.evaluate a = .ok b) (v : Verdicts) :
    ∃ v', v.judge goal as = .ok v' := by
  induction as generalizing v with
  | nil => exact ⟨v, rfl⟩
  | cons a as ih =>
    obtain ⟨b, hb⟩ := h a List.mem_cons_self
    have rest := ih fun a ha => h a (List.mem_cons_of_mem _ ha)
    unfold judge
    rw [hb]
    cases b with
    | true => exact rest _
    | false => exact rest _

theorem Prospect.widen_eq_ok {ps : List Prospect} (h : ∀ p ∈ ps, p.Judgeable) (v : Verdicts) :
    ∃ widened, widen v ps = .ok widened := by
  induction ps generalizing v with
  | nil => exact ⟨_, rfl⟩
  | cons p ps ih =>
    have others := ih fun q hq => h q (List.mem_cons_of_mem p hq)
    unfold widen
    split
    · obtain ⟨widened, eq⟩ := others v
      rw [eq]
      exact ⟨_, rfl⟩
    · split
      · exact ⟨none, rfl⟩
      · next next classes left =>
        have first := h p List.mem_cons_self next (by rw [left]; exact List.mem_cons_self)
        obtain ⟨u, judged⟩ := Verdicts.judge_eq_ok first v
        obtain ⟨widened, eq⟩ := others u
        exact ⟨_, bind_eq_ok_iff.mpr ⟨u, judged, bind_eq_ok_iff.mpr ⟨widened, eq, rfl⟩⟩⟩

/-- The agents can still take in the classes that remain after a round. -/
theorem Prospect.Widens.judgeable {v v' : Verdicts} {ps ps' : List Prospect}
    (h : Widens v ps v' ps') (all : ∀ p ∈ ps, p.Judgeable) : ∀ p ∈ ps', p.Judgeable := by
  induction h with
  | done => exact all
  | rest _ _ ih =>
    obtain ⟨first, others⟩ := List.forall_mem_cons.mp all
    exact List.forall_mem_cons.mpr ⟨first, ih others⟩
  | take _ left _ _ ih =>
    obtain ⟨first, others⟩ := List.forall_mem_cons.mp all
    refine List.forall_mem_cons.mpr ⟨fun cls hcls => ?_, ih others⟩
    exact first cls (by rw [left]; exact List.mem_cons_of_mem _ hcls)

/-- Agents can still take in what remains when they have been marked after a round. -/
theorem Pursuit.judgeable_assess {s s' : Pursuit} (h : ∀ p ∈ s.prospects, p.Judgeable)
    (hround : s.round = .ok (some s')) : ∀ p ∈ s'.assess.prospects, p.Judgeable := by
  intro p hp
  rw [prospects_assess] at hp
  obtain ⟨q, hq, rfl⟩ := List.mem_map.mp hp
  exact (widens_of_round hround).1.judgeable h q hq

theorem Pursuit.round_eq_ok {s : Pursuit} (h : ∀ p ∈ s.prospects, p.Judgeable) :
    ∃ next, s.round = .ok next := by
  obtain ⟨widened, eq⟩ := Prospect.widen_eq_ok h s.verdicts
  exact ⟨_, bind_eq_ok_iff.mpr ⟨widened, eq, rfl⟩⟩

theorem Pursuit.outcome_eq_ok {s : Pursuit} (h : ∀ p ∈ s.prospects, p.Judgeable) :
    ∃ found, s.outcome = .ok found := by
  fun_induction outcome s with
  | case1 s => exact ⟨_, rfl⟩
  | case2 s _ e hround =>
    obtain ⟨next, ok⟩ := round_eq_ok h
    cases ok.symm.trans hround
  | case3 => exact ⟨none, rfl⟩
  | case4 s _ s' hround ih => exact ih (judgeable_assess h hround)

/-! ## Only the choice of comparators fails -/

/-- The failure says that some agent does not revise in the way that a widening search needs. -/
def Error.IsConfiguration (e : Error) : Prop :=
  (∃ search agent, e = .noComparator search agent) ∨ ∃ agent, e = .noDistance agent

namespace Announcement

variable {agents : List Agent} {search : Widening} {e : Error}

theorem isConfiguration_of_comparators (h : comparators search agents = .error e) :
    e.IsConfiguration := by
  obtain ⟨⟨agent, i⟩, -, failed⟩ := exists_of_mapM_eq_error h
  dsimp only at failed
  split at failed
  · cases failed
  · cases failed
    exact Or.inl ⟨search, i, rfl⟩

theorem isConfiguration_of_distanceComparators (h : distanceComparators agents = .error e) :
    e.IsConfiguration := by
  rcases bind_eq_error_iff.mp h with h | ⟨cs, -, h⟩
  · exact isConfiguration_of_comparators h
  · obtain ⟨⟨c, i⟩, -, failed⟩ := exists_of_mapM_eq_error h
    dsimp only at failed
    split at failed
    · cases failed
    · cases failed
      exact Or.inr ⟨i, rfl⟩

theorem isConfiguration_of_classesOf (h : classesOf agents search = .error e) :
    e.IsConfiguration := by
  cases search with
  | byDistance =>
    rcases bind_eq_error_iff.mp h with h | ⟨cs, -, h⟩
    · exact isConfiguration_of_distanceComparators h
    · cases h
  | byOrder =>
    rcases bind_eq_error_iff.mp h with h | ⟨cs, -, h⟩
    · exact isConfiguration_of_comparators h
    · cases h

theorem mem_jointVocabulary {v : Variable} :
    v ∈ Agent.jointVocabulary agents ↔ ∃ agent ∈ agents, v ∈ agent.vocabulary := by
  rw [Agent.jointVocabulary, mem_vocabulary_ofList, List.mem_flatMap]
  simp only [Std.ExtTreeSet.mem_toList]

theorem isOver_goal {agent : Agent} (h : agent ∈ agents) :
    agent.goal.IsOver (Agent.jointVocabulary agents) := fun _ hv =>
  mem_jointVocabulary.mpr ⟨agent, h, mem_vocabulary_ofList.mpr (List.mem_append_right _ hv)⟩

/-- The sentence that some goal is met mentions the variables of all agents. -/
theorem mem_occurrences_someGoal {v : Variable} :
    v ∈ (someGoal agents).occurrences ↔ v ∈ Agent.jointVocabulary agents := by
  rw [someGoal, Formula.mem_occurrences_and, Formula.mem_occurrences_disjunction,
    Formula.mem_occurrences_closure, Std.ExtTreeSet.mem_toList]
  refine or_iff_right_of_imp ?_
  rintro ⟨p, hp, hv⟩
  obtain ⟨agent, hagent, rfl⟩ := List.mem_map.mp hp
  exact isOver_goal hagent v hv

theorem isOn_of_mem_models {a : Assignment} (ha : a ∈ (someGoal agents).models) :
    a.IsOn (Agent.jointVocabulary agents) := by
  intro v
  rw [(Formula.mem_models.mp ha).1, Formula.mem_vocabulary, mem_occurrences_someGoal]

/-- All goals have a value under the models of the sentence that some goal is met. -/
theorem evaluate_goal {agent : Agent} (hagent : agent ∈ agents) {a : Assignment}
    (ha : a ∈ (someGoal agents).models) : ∃ b, agent.goal.evaluate a = .ok b :=
  ⟨_, (isOver_goal hagent).evaluate_eq (isOn_of_mem_models ha) a.completesTo_valuation⟩

theorem mem_models_of_classesOf {classes : List (List (List Assignment))}
    (h : classesOf agents search = .ok classes) :
    ∀ own ∈ classes, ∀ cls ∈ own, ∀ a ∈ cls, a ∈ (someGoal agents).models := by
  refine forall_of_forall₂ (classesOf_eq_ok h) ?_
  rintro agent own ⟨c, -, rfl⟩ cls hcls a ha
  exact Comparator.mem_of_mem_split hcls ha

theorem judgeable_start {classes : List (List (List Assignment))}
    (h : classesOf agents search = .ok classes) :
    ∀ p ∈ (Pursuit.start agents classes).prospects, p.Judgeable := by
  intro p hp cls hcls a ha
  obtain ⟨hagent, hown, -⟩ := Pursuit.mem_start hp
  exact evaluate_goal hagent (mem_models_of_classesOf h _ hown cls hcls a ha)

/-- Once the classes are made, nothing fails. -/
theorem widened_eq_ok {classes : List (List (List Assignment))}
    (h : classesOf agents search = .ok classes) : ∃ found, widened search agents = .ok found := by
  obtain ⟨found, ok⟩ := Pursuit.outcome_eq_ok (judgeable_start h)
  exact ⟨found, bind_eq_ok_iff.mpr ⟨classes, h, ok⟩⟩

theorem isConfiguration_of_widened (h : widened search agents = .error e) : e.IsConfiguration := by
  cases hclasses : classesOf agents search with
  | error e' =>
    rw [widened, hclasses] at h
    cases h
    exact isConfiguration_of_classesOf hclasses
  | ok classes =>
    obtain ⟨found, ok⟩ := widened_eq_ok hclasses
    cases ok.symm.trans h

end Announcement

/-- **In silence a strategy fails only for agents that it is not made for.** -/
theorem Strategy.isConfiguration_of_ending {strategy : Strategy} {agents : List Agent} {e : Error}
    (h : strategy.ending agents = .error e) : e.IsConfiguration := by
  cases strategy with
  | refinement => cases h
  | exhaustion => cases h
  | widening search => exact Announcement.isConfiguration_of_widened h

end BeliefRevision
