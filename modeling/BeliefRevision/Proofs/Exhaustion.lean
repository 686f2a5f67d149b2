import Mathlib.Data.List.Sublists
import Mathlib.Data.Set.Card
import BeliefRevision.Proofs.Cancellation
import BeliefRevision.Proofs.Projection

/-!
# The exhaustive search misses nothing

The candidates of the exhaustive search are the disjunctions of all selections from the assignments
on the joint vocabulary, smaller selections first. What any sentence says about the vocabulary is
said by one of them (`possibilities_narrowed`), and by one only, as different selections are true
under different assignments (`eq_of_equivalent`). Agents only see what a sentence says about the
vocabulary, so if anything solves them all, a candidate does.

* `mem_selections`, `nodup_selections`, `pairwise_length_selections`: the order of the candidates.
* **`exhaustion_complete`**: what the search for one solution and the search for all of them find.
-/

namespace BeliefRevision

/-! ## Selections -/

namespace Announcement

variable {α β : Type} {as bs : List α}

/-- All ways to choose elements of a list, fewer elements first. -/
def selections (as : List α) : List (List α) :=
  (List.range (as.length + 1)).flatMap fun n => choose n as

theorem choose_perm (n : Nat) (as : List α) : (choose n as).Perm (as.sublistsLen n) := by
  fun_induction choose n as with
  | case1 => rw [List.sublistsLen_zero]
  | case2 n => rw [List.sublistsLen_succ_nil]
  | case3 n a as ih ih' =>
    rw [List.sublistsLen_succ_cons]
    exact ((ih.map _).append ih').trans List.perm_append_comm

theorem mem_choose {n : Nat} : bs ∈ choose n as ↔ bs.Sublist as ∧ bs.length = n := by
  rw [(choose_perm n as).mem_iff, List.mem_sublistsLen]

theorem choose_map (f : α → β) (n : Nat) (as : List α) :
    choose n (as.map f) = (choose n as).map (List.map f) := by
  fun_induction choose n as with
  | case1 => rw [choose, List.map_singleton, List.map_nil]
  | case2 n => rw [List.map_nil, choose, List.map_nil]
  | case3 n a as ih ih' =>
    rw [List.map_cons, choose, ih, ih', List.map_append, List.map_map, List.map_map]
    rfl

/-- **A selection is a sublist.** -/
theorem mem_selections : bs ∈ selections as ↔ bs.Sublist as := by
  simp only [selections, List.mem_flatMap, List.mem_range, mem_choose]
  constructor
  · rintro ⟨n, -, sub, -⟩
    exact sub
  · exact fun sub => ⟨bs.length, Nat.lt_succ_of_le sub.length_le, sub, rfl⟩

/-- Between two places in the list of selections, the number of elements can only rise. -/
theorem pairwise_length_selections (as : List α) :
    (selections as).Pairwise fun bs cs => bs.length ≤ cs.length := by
  refine List.pairwise_flatMap.mpr ⟨fun n _ => ?_, List.pairwise_lt_range.imp fun {m n} lt => ?_⟩
  · refine List.pairwise_of_forall_mem_list fun bs hbs cs hcs => ?_
    rw [(mem_choose.mp hbs).2, (mem_choose.mp hcs).2]
  · intro bs hbs cs hcs
    rw [(mem_choose.mp hbs).2, (mem_choose.mp hcs).2]
    exact lt.le

theorem nodup_selections (h : as.Nodup) : (selections as).Nodup := by
  refine List.nodup_flatMap.mpr ⟨fun n _ => ?_, List.pairwise_lt_range.imp fun {m n} lt => ?_⟩
  · exact (choose_perm n as).nodup_iff.mpr (List.nodup_sublistsLen n h)
  · intro bs hm hn
    exact absurd ((mem_choose.mp hm).2.symm.trans (mem_choose.mp hn).2) lt.ne

/-- A sublist of a list without duplicates is determined by its members. -/
theorem eq_of_sublist {bs cs : List α} (h : as.Nodup) (hb : bs.Sublist as) (hc : cs.Sublist as)
    (same : ∀ a, a ∈ bs ↔ a ∈ cs) : bs = cs := by
  classical
  have filtered {ds : List α} (hd : ds.Sublist as) : ds = as.filter (· ∈ ds) := by
    have all : ds.filter (· ∈ ds) = ds := List.filter_eq_self.mpr fun a ha => decide_eq_true ha
    have sub : (ds.filter (· ∈ ds)).Sublist (as.filter (· ∈ ds)) := hd.filter _
    rw [all] at sub
    refine sub.eq_of_length (List.Perm.length_eq ?_)
    refine (List.perm_ext_iff_of_nodup (h.sublist hd) (h.filter _)).mpr fun a => ?_
    rw [List.mem_filter, decide_eq_true_iff]
    exact (and_iff_right_of_imp (hd.subset ·)).symm
  rw [filtered hb, filtered hc]
  simp only [same]

/-- The candidates of the exhaustive search are the selections of assignments as formulas. -/
theorem allCandidates_eq (agents : List Agent) : allCandidates agents =
    (selections (Assignment.onVocabulary (Agent.jointVocabulary agents))).map
      Formula.ofAssignments := by
  rw [allCandidates, sizes, selections, List.map_flatMap, terms, List.length_map]
  refine List.flatMap_congr fun n _ => ?_
  rw [candidates, terms, choose_map, List.map_map]
  rfl

end Announcement

/-! ## What selections say -/

namespace Formula

variable {p s : Formula} {vs : Vocabulary} {as bs : List Assignment} {f : Valuation}

/-- What a sentence says about a vocabulary, said in its variables: the disjunction of the
assignments on the vocabulary that can be true together with it. -/
def narrowed (s : Formula) (vs : Vocabulary) : Formula :=
  ofAssignments ((Assignment.onVocabulary vs).filter fun a => (s.and a.toFormula).isSatisfiable)

theorem isOver_narrowed (s : Formula) (vs : Vocabulary) : (s.narrowed vs).IsOver vs :=
  Revision.isOver_ofAssignments fun _ ha => Assignment.mem_onVocabulary.mp (List.mem_filter.mp ha).1

theorem canonical_narrowed (s : Formula) (vs : Vocabulary) : (s.narrowed vs).Canonical :=
  Assignment.canonical_ofAssignments _

theorem holds_narrowed : (s.narrowed vs).holds f = true ↔ f ∈ s.possibilities vs := by
  rw [narrowed, Assignment.holds_ofAssignments]
  simp only [List.mem_filter, Assignment.mem_onVocabulary, isSatisfiable_and_toFormula]
  constructor
  · rintro ⟨a, ⟨on, g, hg, hs⟩, hf⟩
    rw [Assignment.eq_on_of_completesTo on hf] at hg
    exact ⟨g, Assignment.completesTo_on_iff.mp hg, hs⟩
  · rintro ⟨g, agree, hs⟩
    have completes : (f.on vs).CompletesTo g := Assignment.completesTo_on_iff.mpr agree
    exact ⟨f.on vs, ⟨Assignment.isOn_on f vs, g, completes, hs⟩, Assignment.completesTo_on f vs⟩

/-- **A selection says what any given sentence says** about the vocabulary. -/
theorem possibilities_narrowed (s : Formula) (vs : Vocabulary) :
    (s.narrowed vs).possibilities vs = s.possibilities vs := by
  ext f
  rw [(isOver_narrowed s vs).mem_possibilities, holds_narrowed]

/-- **Different selections say different things.** -/
theorem eq_of_equivalent (ha : as.Sublist (Assignment.onVocabulary vs))
    (hb : bs.Sublist (Assignment.onVocabulary vs))
    (h : (ofAssignments as).Equivalent (ofAssignments bs)) : as = bs := by
  have onA : ∀ a ∈ as, a.IsOn vs := fun a h => Assignment.mem_onVocabulary.mp (ha.subset h)
  have onB : ∀ a ∈ bs, a.IsOn vs := fun a h => Assignment.mem_onVocabulary.mp (hb.subset h)
  refine Announcement.eq_of_sublist Assignment.nodup_onVocabulary ha hb fun a => ?_
  by_cases on : a.IsOn vs
  · have given : ∀ v ∈ (ofAssignments as).occurrences ++ (ofAssignments bs).occurrences, v ∈ a :=
      List.forall_mem_append.mpr ⟨fun v hv => (on v).mpr (Revision.isOver_ofAssignments onA v hv),
        fun v hv => (on v).mpr (Revision.isOver_ofAssignments onB v hv)⟩
    rw [← Revision.evaluate_ofAssignments onA on, ← Revision.evaluate_ofAssignments onB on,
      h a given]
  · exact iff_of_false (mt (onA a) on) (mt (onB a) on)

/-- The number of assignments on the vocabulary that make a formula true. -/
noncomputable def modelCount (p : Formula) (vs : Vocabulary) : Nat :=
  {a : Assignment | a.IsOn vs ∧ p.evaluate a = .ok true}.ncard

theorem modelCount_ofAssignments (h : as.Sublist (Assignment.onVocabulary vs)) :
    (ofAssignments as).modelCount vs = as.length := by
  classical
  have on : ∀ a ∈ as, a.IsOn vs := fun a ha => Assignment.mem_onVocabulary.mp (h.subset ha)
  have models : {a : Assignment | a.IsOn vs ∧ (ofAssignments as).evaluate a = .ok true} =
      as.toFinset := by
    ext a
    rw [Finset.mem_coe, List.mem_toFinset]
    exact Revision.isOn_and_evaluate_ofAssignments on
  rw [modelCount, models, Set.ncard_coe_finset,
    List.toFinset_card_of_nodup (Assignment.nodup_onVocabulary.sublist h)]

end Formula

/-! ## The searches -/

namespace Announcement

variable {agents : List Agent} {s a : Formula}

/-- The candidates that solve all agents, in their order. -/
def solvers (agents : List Agent) : List Formula := (allCandidates agents).filter (solves agents)

theorem mem_allCandidates : a ∈ allCandidates agents ↔
    ∃ as : List Assignment, as.Sublist (Assignment.onVocabulary (Agent.jointVocabulary agents)) ∧
      Formula.ofAssignments as = a := by
  rw [allCandidates_eq, List.mem_map]
  simp only [mem_selections]

theorem canonical_of_mem_allCandidates (h : a ∈ allCandidates agents) : a.Canonical := by
  obtain ⟨as, -, rfl⟩ := mem_allCandidates.mp h
  exact Assignment.canonical_ofAssignments as

theorem resolve_exhaustion (nonempty : agents ≠ []) :
    Strategy.exhaustion.resolve agents = .ok (solvers agents).head? := by
  rw [Strategy.resolve_eq, Strategy.ending, found, if_neg (by simpa using nonempty), solvers,
    List.head?_filter]

/-- What a sentence says about the joint vocabulary is a candidate. -/
theorem narrowed_mem_solvers_iff : s.narrowed (Agent.jointVocabulary agents) ∈ solvers agents ↔
    ∀ agent ∈ agents, agent.isSolvedBy (s.narrowed (Agent.jointVocabulary agents)) = true := by
  have candidate : s.narrowed (Agent.jointVocabulary agents) ∈ allCandidates agents :=
    mem_allCandidates.mpr ⟨_, List.filter_sublist, rfl⟩
  rw [solvers, List.mem_filter, and_iff_right candidate, solves, List.all_eq_true]

/-- A sentence that solves all agents says the same to them as a candidate. -/
theorem narrowed_mem_solvers
    (isOver : ∀ agent ∈ agents, agent.IsOver (Agent.jointVocabulary agents)) (hs : s.Canonical)
    (h : ∀ agent ∈ agents, agent.isSolvedBy s = true) :
    s.narrowed (Agent.jointVocabulary agents) ∈ solvers agents := by
  refine narrowed_mem_solvers_iff.mpr fun agent hagent => ?_
  rw [Agent.isSolvedBy_congr (isOver agent hagent) (Formula.canonical_narrowed s _) hs
    (Formula.possibilities_narrowed s _)]
  exact h agent hagent

theorem eq_of_equivalent_candidates {a b : Formula} (ha : a ∈ allCandidates agents)
    (hb : b ∈ allCandidates agents) (h : a.Equivalent b) : a = b := by
  obtain ⟨as, subA, rfl⟩ := mem_allCandidates.mp ha
  obtain ⟨bs, subB, rfl⟩ := mem_allCandidates.mp hb
  rw [Formula.eq_of_equivalent subA subB h]

theorem pairwise_allCandidates (agents : List Agent) :
    (allCandidates agents).Pairwise fun a b => ¬a.Equivalent b ∧
      a.modelCount (Agent.jointVocabulary agents) ≤
        b.modelCount (Agent.jointVocabulary agents) := by
  have nodup : (selections (Assignment.onVocabulary (Agent.jointVocabulary agents))).Nodup :=
    nodup_selections Assignment.nodup_onVocabulary
  rw [allCandidates_eq, List.pairwise_map]
  refine (nodup.and (pairwise_length_selections _)).imp_of_mem fun {as bs} ha hb h => ?_
  have subA := mem_selections.mp ha
  have subB := mem_selections.mp hb
  refine ⟨fun equivalent => h.1 (Formula.eq_of_equivalent subA subB equivalent), ?_⟩
  rw [Formula.modelCount_ofAssignments subA, Formula.modelCount_ofAssignments subB]
  exact h.2

theorem pairwise_solvers (agents : List Agent) :
    (solvers agents).Pairwise fun a b => ¬a.Equivalent b ∧
      a.modelCount (Agent.jointVocabulary agents) ≤
        b.modelCount (Agent.jointVocabulary agents) :=
  (pairwise_allCandidates agents).filter (solves agents)

/-- The list has the solutions for the agents, one of every meaning, those with fewer models
first. -/
structure ListsSolutions (agents : List Agent) (all : List Formula) : Prop where
  sound : ∀ a ∈ all, ∀ agent ∈ agents, agent.isSolvedBy a = true
  complete : ∀ s : Formula, s.Canonical → s.IsOver (Agent.jointVocabulary agents) →
    (∀ agent ∈ agents, agent.isSolvedBy s = true) → ∃! a, a ∈ all ∧ s.Equivalent a
  different : all.Pairwise fun a b => ¬a.Equivalent b
  ordered : all.Pairwise fun a b => a.modelCount (Agent.jointVocabulary agents) ≤
    b.modelCount (Agent.jointVocabulary agents)

theorem listsSolutions_solvers
    (isOver : ∀ agent ∈ agents, agent.IsOver (Agent.jointVocabulary agents)) :
    ListsSolutions agents (solvers agents) := by
  refine ⟨fun a ha => List.all_eq_true.mp (List.mem_filter.mp ha).2, fun s hs hover solved => ?_,
    (pairwise_solvers agents).imp And.left, (pairwise_solvers agents).imp And.right⟩
  have found := narrowed_mem_solvers isOver hs solved
  have equivalent : s.Equivalent (s.narrowed (Agent.jointVocabulary agents)) :=
    hover.equivalent (Formula.isOver_narrowed s _) (Formula.possibilities_narrowed s _).symm
  refine ⟨_, ⟨found, equivalent⟩, fun a ⟨ha, same⟩ => ?_⟩
  exact eq_of_equivalent_candidates (List.mem_filter.mp ha).1 (List.mem_filter.mp found).1
    (same.symm.trans equivalent)

end Announcement

/-- **The exhaustive search is complete.** Take agents that revise by consistency, by conflicts or
behind trust in regions over their variables, and consider formulas that can be built. Weights add
up, whatever is announced. The search finds no announcement exactly if no sentence over any
variables solves all agents. The search for all solutions finds one for every meaning that a
solution over their variables can have, those with fewer models first, and the first of them is what
the search for one announcement finds. -/
theorem exhaustion_complete {agents : List Agent} (nonempty : agents ≠ [])
    (canonical : ∀ agent ∈ agents, ∀ p ∈ agent.initial, p.Canonical)
    (isOver : ∀ agent ∈ agents, ∀ s : Formula, s.Canonical →
      agent.revision.IsOver (Agent.jointVocabulary agents) agent.initial s) :
    (Strategy.exhaustion.resolve agents = .ok none ↔
      ¬∃ s : Formula, s.Canonical ∧ ∀ agent ∈ agents, agent.isSolvedBy s = true) ∧
    ∃ all : List Formula, Signal.unwatched (Announcement.allSolutions agents) = .ok all ∧
      Announcement.ListsSolutions agents all ∧
      Strategy.exhaustion.resolve agents = .ok all.head? := by
  have each : ∀ agent ∈ agents, agent.IsOver (Agent.jointVocabulary agents) := fun agent h =>
    ⟨fun v hv => Announcement.mem_jointVocabulary.mpr ⟨agent, h, hv⟩, canonical agent h,
      isOver agent h⟩
  refine ⟨?_, Announcement.solvers agents,
    Watched.Returns.unwatched_eq (Announcement.returns_allSolutions agents),
    Announcement.listsSolutions_solvers each, Announcement.resolve_exhaustion nonempty⟩
  rw [Announcement.resolve_exhaustion nonempty, Except.ok.injEq, List.head?_eq_none_iff]
  constructor
  · rintro noSolver ⟨s, hs, solved⟩
    exact List.ne_nil_of_mem (Announcement.narrowed_mem_solvers each hs solved) noSolver
  · intro unsolvable
    refine List.eq_nil_iff_forall_not_mem.mpr fun a ha => unsolvable ⟨a, ?_⟩
    obtain ⟨candidate, solved⟩ := List.mem_filter.mp ha
    exact ⟨Announcement.canonical_of_mem_allCandidates candidate, List.all_eq_true.mp solved⟩

/-- An agent that keeps a belief, which has a weight, if it is told the same or, as far as it
understands, nothing. -/
theorem exhaustion_complete_one_agent :
    [(⟨{.var "p"}, .var "p", .trusting (.regions [.var "p"] (List.cons_ne_nil _ _))
      (.nearest (.weighted (.ofEntries [("p", 3)])))⟩ : Agent)] ≠ [] ∧
    (∀ agent ∈ [(⟨{.var "p"}, .var "p", .trusting (.regions [.var "p"] (List.cons_ne_nil _ _))
      (.nearest (.weighted (.ofEntries [("p", 3)])))⟩ : Agent)],
        ∀ p ∈ agent.initial, p.Canonical) ∧
    (∀ agent ∈ [(⟨{.var "p"}, .var "p", .trusting (.regions [.var "p"] (List.cons_ne_nil _ _))
      (.nearest (.weighted (.ofEntries [("p", 3)])))⟩ : Agent)], ∀ s : Formula, s.Canonical →
        agent.revision.IsOver (Agent.jointVocabulary
          [⟨{.var "p"}, .var "p", .trusting (.regions [.var "p"] (List.cons_ne_nil _ _))
            (.nearest (.weighted (.ofEntries [("p", 3)])))⟩]) agent.initial s) ∧
    (∃ s : Formula, s.Canonical ∧
      ∀ agent ∈ [(⟨{.var "p"}, .var "p", .trusting (.regions [.var "p"] (List.cons_ne_nil _ _))
        (.nearest (.weighted (.ofEntries [("p", 3)])))⟩ : Agent)], agent.isSolvedBy s = true) ∧
    Announcement.ListsSolutions
      [⟨{.var "p"}, .var "p", .trusting (.regions [.var "p"] (List.cons_ne_nil _ _))
        (.nearest (.weighted (.ofEntries [("p", 3)])))⟩]
      [.var "p", .join .or [.var "p", .not (.var "p")]] := by
  have canonical : ∀ agent ∈ [(⟨{.var "p"}, .var "p",
      .trusting (.regions [.var "p"] (List.cons_ne_nil _ _))
        (.nearest (.weighted (.ofEntries [("p", 3)])))⟩ : Agent)],
          ∀ p ∈ agent.initial, p.Canonical := by
    refine List.forall_mem_singleton.mpr fun p hp => ?_
    rw [← Std.ExtTreeSet.mem_toList, Belief.toList_singleton, List.mem_singleton] at hp
    exact hp ▸ .var "p"
  have addUp : ∀ s, (Weights.ofEntries [("p", 3)]).AddUpIn {.var "p"} s :=
    Weights.addUpIn_of_sum_lt (by decide +kernel)
  have isOver : ∀ agent ∈ [(⟨{.var "p"}, .var "p",
      .trusting (.regions [.var "p"] (List.cons_ne_nil _ _))
        (.nearest (.weighted (.ofEntries [("p", 3)])))⟩ : Agent)], ∀ s : Formula, s.Canonical →
          agent.revision.IsOver (Agent.jointVocabulary [⟨{.var "p"}, .var "p",
            .trusting (.regions [.var "p"] (List.cons_ne_nil _ _))
              (.nearest (.weighted (.ofEntries [("p", 3)])))⟩]) agent.initial s := by
    refine List.forall_mem_singleton.mpr fun s _ =>
      .trusting ?_ (.nearest (.weighted (addUp _)))
    rintro declared ⟨⟩
    refine List.forall_mem_singleton.mpr ⟨.var "p", List.forall_mem_singleton.mpr ?_⟩
    exact Announcement.mem_jointVocabulary.mpr ⟨_, List.mem_cons_self, by decide +kernel⟩
  have found : Signal.unwatched (Announcement.allSolutions [⟨{.var "p"}, .var "p",
      .trusting (.regions [.var "p"] (List.cons_ne_nil _ _))
        (.nearest (.weighted (.ofEntries [("p", 3)])))⟩]) =
          .ok [.var "p", .join .or [.var "p", .not (.var "p")]] := by
    decide +kernel
  obtain ⟨unsolvable, all, search, lists, -⟩ :=
    exhaustion_complete (List.cons_ne_nil _ _) canonical isOver
  refine ⟨List.cons_ne_nil _ _, canonical, isOver, not_not.mp fun unsolved => ?_, ?_⟩
  · exact absurd (unsolvable.mpr unsolved) (by decide +kernel)
  · cases search.symm.trans found
    exact lists

end BeliefRevision
