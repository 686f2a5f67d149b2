import BeliefRevision.Proofs.Exhaustion
import BeliefRevision.Proofs.Refinements
import BeliefRevision.Proofs.Rounds
import BeliefRevision.Proofs.Soundness
import BeliefRevision.Proofs.Synonyms

/-!
# No announcement has fewer models than the one found by exhaustion

The strategies build their announcements in different ways, but each of them mentions the variables
of all agents, or is a contradiction (`Formula.IsFull`). Such a sentence is synonymous with what it
says about these variables, which is a candidate of the exhaustive search. So that search finds
something whenever another strategy does, and what it finds has as few models as any candidate that
solves the agents.

* `Formula.IsFull.synonymous_narrowed`: full sentences are synonymous with candidates.
* `Strategy.isFull_of_ending`: what the strategies announce is full, if there are agents.
* **`exhaustion_fewest`**: no strategy finds an announcement with fewer models.
-/

namespace BeliefRevision

/-! ## Full sentences -/

namespace Formula

variable {p q : Formula} {vs : Vocabulary} {as : List Assignment}

/-- The formula mentions all variables of the vocabulary and no others, but a contradiction need not
mention all of them. -/
structure IsFull (p : Formula) (vs : Vocabulary) : Prop where
  isOver : p.IsOver vs
  mentions : (∃ f, p.holds f = true) → ∀ v ∈ vs, v ∈ p.occurrences

theorem isFull_ofAssignments (h : ∀ a ∈ as, a.IsOn vs) : (ofAssignments as).IsFull vs where
  isOver := Revision.isOver_ofAssignments h
  mentions := by
    rintro ⟨f, hf⟩ v hv
    obtain ⟨a, ha, -⟩ := Assignment.holds_ofAssignments.mp hf
    exact Assignment.mem_occurrences_ofAssignments.mpr ⟨a, ha, (h a ha v).mpr hv⟩

theorem IsFull.and (hp : p.IsFull vs) (hq : q.IsOver vs) : (p.and q).IsFull vs where
  isOver v hv := (mem_occurrences_and.mp hv).elim (hp.isOver v) (hq v)
  mentions := by
    rintro ⟨f, hf⟩ v hv
    exact mem_occurrences_and.mpr (Or.inl (hp.mentions ⟨f, (holds_and.mp hf).1⟩ v hv))

theorem IsFull.synonymous (hp : p.IsFull vs) (hq : q.IsFull vs) (h : ∀ f, p.holds f = q.holds f) :
    p.Synonymous q where
  holds_eq := h
  mem_occurrences_iff := by
    rintro ⟨f, hf⟩ v
    exact ⟨fun hv => hq.mentions ⟨f, h f ▸ hf⟩ v (hp.isOver v hv),
      fun hv => hp.mentions ⟨f, hf⟩ v (hq.isOver v hv)⟩

theorem isFull_narrowed (p : Formula) (vs : Vocabulary) : (p.narrowed vs).IsFull vs :=
  isFull_ofAssignments fun _ ha => Assignment.mem_onVocabulary.mp (List.mem_filter.mp ha).1

/-- A formula over the vocabulary is as true as what it says about it. -/
theorem IsOver.holds_narrowed (h : p.IsOver vs) (f : Valuation) :
    p.holds f = (p.narrowed vs).holds f :=
  Bool.eq_iff_iff.mpr (h.mem_possibilities.symm.trans Formula.holds_narrowed.symm)

/-- **A full formula is synonymous with what it says** about the vocabulary. -/
theorem IsFull.synonymous_narrowed (h : p.IsFull vs) : p.Synonymous (p.narrowed vs) :=
  h.synonymous (isFull_narrowed p vs) h.isOver.holds_narrowed

theorem IsOver.modelCount_eq (hp : p.IsOver vs) (hq : q.IsOver vs)
    (h : ∀ f, p.holds f = q.holds f) : p.modelCount vs = q.modelCount vs := by
  refine congrArg Set.ncard (Set.ext fun a => and_congr_right fun on => ?_)
  rw [hp.evaluate_eq on a.completesTo_valuation, hq.evaluate_eq on a.completesTo_valuation, h]

end Formula

/-! ## What strategies announce -/

/-- Where the verdicts are on assignments on a vocabulary, the announcement is full. -/
theorem Verdicts.isFull_announcement {v : Verdicts} {vs : Vocabulary}
    (h : ∀ x, ∀ a ∈ v.given x, a.IsOn vs) : v.announcement.IsFull vs := by
  have accepted : (Formula.ofAssignments v.accepted.toList).IsFull vs :=
    Formula.isFull_ofAssignments fun a ha => h true a (Std.ExtTreeSet.mem_toList.mp ha)
  have rejected : (Formula.not (Formula.ofAssignments v.rejected.toList)).IsOver vs :=
    Revision.isOver_ofAssignments fun a ha => h false a (Std.ExtTreeSet.mem_toList.mp ha)
  unfold announcement
  split
  · exact accepted
  · exact accepted.and rejected

theorem Verdicts.canonical_announcement (v : Verdicts) : v.announcement.Canonical := by
  unfold announcement
  split
  · exact Assignment.canonical_ofAssignments _
  · exact Formula.canonical_and (Assignment.canonical_ofAssignments _)
      (.not (Assignment.canonical_ofAssignments _))

namespace Announcement

variable {agents : List Agent} {search : Widening} {a p : Formula}
  {classes : List (List (List Assignment))}

theorem isFull_of_mem_refinements (h : p ∈ refinements agents) :
    p.IsFull (Agent.jointVocabulary agents) where
  isOver _ hv := (mem_occurrences_of_mem_refinements h).mp hv
  mentions _ _ hv := (mem_occurrences_of_mem_refinements h).mpr hv

theorem canonical_of_mem_refinements (goals : ∀ agent ∈ agents, agent.goal.Canonical)
    (h : p ∈ refinements agents) : p.Canonical := by
  obtain ⟨a, -, rfl⟩ := mem_refinements.mp h
  exact canonical_refine (canonical_base goals) a

/-- Agents take in assignments on the joint vocabulary only. -/
theorem within_start (h : classesOf agents search = .ok classes) :
    (Pursuit.start agents classes).Within (·.IsOn (Agent.jointVocabulary agents)) := by
  refine ⟨fun x a ha => ?_, fun p hp cls hcls a ha => ?_⟩
  · cases x <;> exact absurd ha Std.ExtTreeSet.not_mem_empty
  · have own := (Pursuit.mem_start hp).2.1
    exact isOn_of_mem_models (mem_models_of_classesOf h _ own cls hcls a ha)

theorem not_isDone_start (nonempty : agents ≠ []) (h : classesOf agents search = .ok classes) :
    ¬(Pursuit.start agents classes).isDone = true := by
  intro done
  obtain ⟨agent, hagent⟩ := List.exists_mem_of_ne_nil agents nonempty
  rw [← Pursuit.agents_start (classesOf_eq_ok h).length_eq] at hagent
  obtain ⟨p, hp, -⟩ := List.mem_map.mp hagent
  cases (Pursuit.mem_start hp).2.2.symm.trans (List.all_eq_true.mp done p hp)

/-- As the search cannot end before its first round, it announces what verdicts come to. -/
theorem isFull_of_widened (nonempty : agents ≠ [])
    (h : widened search agents = .ok (some a)) :
    a.IsFull (Agent.jointVocabulary agents) ∧ a.Canonical := by
  obtain ⟨classes, hclasses, h⟩ := bind_eq_ok_iff.mp h
  obtain ⟨v, on, rfl⟩ := (within_start hclasses).exists_verdicts
    (fun done => absurd done (not_isDone_start nonempty hclasses)) h
  exact ⟨v.isFull_announcement on, v.canonical_announcement⟩

end Announcement

/-- **Announcements are full** and canonical, if there are agents. -/
theorem Strategy.isFull_of_ending {strategy : Strategy} {agents : List Agent} {a : Formula}
    (nonempty : agents ≠ []) (goals : ∀ agent ∈ agents, agent.goal.Canonical)
    (h : strategy.ending agents = .ok (some a)) :
    a.IsFull (Agent.jointVocabulary agents) ∧ a.Canonical := by
  have listed {candidates : List Formula}
      (h : Announcement.found agents candidates = some a) : a ∈ candidates := by
    rw [Announcement.found, if_neg (by simpa using nonempty)] at h
    exact List.mem_of_find?_eq_some h
  cases strategy with
  | refinement =>
    have mem := listed (Except.ok.inj h)
    exact ⟨Announcement.isFull_of_mem_refinements mem,
      Announcement.canonical_of_mem_refinements goals mem⟩
  | exhaustion =>
    have mem := listed (Except.ok.inj h)
    obtain ⟨as, sub, rfl⟩ := Announcement.mem_allCandidates.mp mem
    exact ⟨Formula.isFull_ofAssignments fun a ha => Assignment.mem_onVocabulary.mp (sub.subset ha),
      Assignment.canonical_ofAssignments as⟩
  | widening search => exact Announcement.isFull_of_widened nonempty h

/-- With no agents every strategy announces what is always true. -/
theorem Strategy.ending_nil (strategy : Strategy) : strategy.ending [] = .ok (some .top) := by
  cases strategy with
  | refinement => rfl
  | exhaustion => rfl
  | widening search =>
    have none : Announcement.classesOf [] search = .ok [] := by cases search <;> rfl
    exact bind_eq_ok_iff.mpr ⟨[], none, Pursuit.outcome_of_isDone rfl⟩

/-! ## The fewest models -/

namespace Announcement

variable {agents : List Agent} {a b : Formula}

/-- The first candidate that solves all agents has as few models as any other. -/
theorem modelCount_le_of_head? (h : (solvers agents).head? = some b) (ha : a ∈ solvers agents) :
    b.modelCount (Agent.jointVocabulary agents) ≤ a.modelCount (Agent.jointVocabulary agents) := by
  obtain ⟨rest, eq⟩ := List.head?_eq_some_iff.mp h
  have pairwise := pairwise_solvers agents
  rw [eq] at pairwise ha
  rcases List.mem_cons.mp ha with rfl | ha
  · exact le_rfl
  · exact ((List.pairwise_cons.mp pairwise).1 a ha).2

/-- A full sentence that solves all agents, however they trust or layer, is said by a candidate that
does so too. -/
theorem narrowed_mem_solvers_of_isFull (regular : ∀ agent ∈ agents, agent.Regular)
    (full : a.IsFull (Agent.jointVocabulary agents)) (canonical : a.Canonical)
    (h : solves agents a = true) : a.narrowed (Agent.jointVocabulary agents) ∈ solvers agents := by
  refine narrowed_mem_solvers_iff.mpr fun agent hagent => ?_
  rw [← (regular agent hagent).isSolvedBy_eq canonical (Formula.canonical_narrowed a _)
    full.synonymous_narrowed]
  exact List.all_eq_true.mp h agent hagent

end Announcement

/-- **No strategy beats the exhaustive search.** Take agents that revise by consistency, by any
total preorder or behind any trust, with goals that can be built. If a strategy finds an
announcement, then so does the exhaustive search, and it has at most as many models on the joint
vocabulary. Neither announcement mentions other variables. -/
theorem exhaustion_fewest {agents : List Agent} (regular : ∀ agent ∈ agents, agent.Regular)
    {strategy : Strategy} {a : Formula} (h : strategy.resolve agents = .ok (some a)) :
    a.IsOver (Agent.jointVocabulary agents) ∧
      ∃ b, Strategy.exhaustion.resolve agents = .ok (some b) ∧
        b.IsOver (Agent.jointVocabulary agents) ∧
        b.modelCount (Agent.jointVocabulary agents) ≤
          a.modelCount (Agent.jointVocabulary agents) := by
  rw [Strategy.resolve_eq] at h
  by_cases empty : agents = []
  · subst empty
    cases h.symm.trans strategy.ending_nil
    have isOver : Formula.top.IsOver (Agent.jointVocabulary []) := List.forall_mem_nil _
    have found := (Strategy.exhaustion.resolve_eq []).trans (Strategy.ending_nil _)
    exact ⟨isOver, .top, found, isOver, le_rfl⟩
  have goals : ∀ agent ∈ agents, agent.goal.Canonical := fun agent h => (regular agent h).goal
  obtain ⟨full, canonical⟩ := Strategy.isFull_of_ending empty goals h
  have solver := Announcement.narrowed_mem_solvers_of_isFull regular full canonical
    (Strategy.solves_of_ending h)
  obtain ⟨b, hb⟩ : ∃ b, (Announcement.solvers agents).head? = some b :=
    Option.ne_none_iff_exists'.mp (List.head?_eq_none_iff.not.mpr (List.ne_nil_of_mem solver))
  have found : Strategy.exhaustion.resolve agents = .ok (some b) := by
    rw [Announcement.resolve_exhaustion empty, hb]
  have ending := (Strategy.exhaustion.resolve_eq agents).symm.trans found
  refine ⟨full.isOver, b, found, ?_, ?_⟩
  · exact (Strategy.isFull_of_ending empty goals ending).1.isOver
  · rw [full.isOver.modelCount_eq (Formula.isOver_narrowed a _) full.isOver.holds_narrowed]
    exact Announcement.modelCount_le_of_head? hb solver

/-- Agents with a layer and with a region over a variable of which none has a belief, and a
refinement of their goal. -/
theorem exhaustion_fewest_two_agents :
    (∀ agent ∈ [(⟨{.var "p"}, .var "q", .nearest (.layered [.var "r"])⟩ : Agent),
        ⟨{.var "q"}, .var "q",
          .trusting (.regions [.var "r"] (List.cons_ne_nil _ _)) .consistency⟩], agent.Regular) ∧
    Strategy.refinement.resolve [⟨{.var "p"}, .var "q", .nearest (.layered [.var "r"])⟩,
        ⟨{.var "q"}, .var "q",
          .trusting (.regions [.var "r"] (List.cons_ne_nil _ _)) .consistency⟩] =
      .ok (some (.join .and [.var "q", .var "p"])) ∧
    ∃ b, Strategy.exhaustion.resolve [⟨{.var "p"}, .var "q", .nearest (.layered [.var "r"])⟩,
        ⟨{.var "q"}, .var "q",
          .trusting (.regions [.var "r"] (List.cons_ne_nil _ _)) .consistency⟩] = .ok (some b) ∧
      b.modelCount (Agent.jointVocabulary
        [⟨{.var "p"}, .var "q", .nearest (.layered [.var "r"])⟩,
          ⟨{.var "q"}, .var "q",
            .trusting (.regions [.var "r"] (List.cons_ne_nil _ _)) .consistency⟩]) ≤
        (Formula.join .and [.var "q", .var "p"]).modelCount (Agent.jointVocabulary
          [⟨{.var "p"}, .var "q", .nearest (.layered [.var "r"])⟩,
            ⟨{.var "q"}, .var "q",
              .trusting (.regions [.var "r"] (List.cons_ne_nil _ _)) .consistency⟩]) := by
  have regular : ∀ agent ∈ [(⟨{.var "p"}, .var "q", .nearest (.layered [.var "r"])⟩ : Agent),
      ⟨{.var "q"}, .var "q",
        .trusting (.regions [.var "r"] (List.cons_ne_nil _ _)) .consistency⟩], agent.Regular := by
    refine List.forall_mem_cons.mpr ⟨⟨.var "q", ?_⟩, List.forall_mem_singleton.mpr ⟨.var "q", ?_⟩⟩
    · exact Revision.Preordered.distance _ _
    · exact .trusting _ .consistency
  have found : Strategy.refinement.resolve
      [⟨{.var "p"}, .var "q", .nearest (.layered [.var "r"])⟩, ⟨{.var "q"}, .var "q",
        .trusting (.regions [.var "r"] (List.cons_ne_nil _ _)) .consistency⟩] =
      .ok (some (.join .and [.var "q", .var "p"])) := by decide +kernel
  obtain ⟨-, b, exhausted, -, fewest⟩ := exhaustion_fewest regular found
  exact ⟨regular, found, b, exhausted, fewest⟩

end BeliefRevision
