import BeliefRevision.Proofs.Failure

/-!
# Cancellation changes no answer

A search that is cancelled may fail, but it does not answer wrongly. What a search returns under an
arbitrary signal is read off from `Search.Returns`, and how it can fail in silence is known from
`Failure`. Added here is what happens under a signal that is raised from the start: the first look
at it comes before anything is found, and no search for an announcement answers (`Search.Balks`).

* **`cancellation_safe`**: all of this in one statement.
-/

namespace BeliefRevision

/-! ## A signal that is raised from the start -/

/-- The search gives up at once under a raised signal. -/
def Search.Balks {α : Type} (x : Search α) : Prop :=
  ∀ s, s.raised = true → ∃ e, x.outcome s = .error e

theorem Signal.read_of_raised {s : Signal} (hs : s.raised = true) : (read.run s).1 = true := by
  change (s.raised || s.atReading s.readings) = true
  rw [hs, Bool.true_or]

namespace Search

variable {α β : Type} {x : Search α} {f : α → Search β} {stage : Stage}

theorem Balks.bind (hx : x.Balks) : (x >>= f).Balks := by
  intro s hs
  obtain ⟨e, he⟩ := hx s hs
  refine ⟨e, ?_⟩
  change ((ExceptT.bindCont f (x.run.run s).1).run (x.run.run s).2).1 = .error e
  rw [outcome] at he
  rw [he]
  rfl

theorem Balks.during (hx : x.Balks) : (x.during stage).Balks := by
  intro s hs
  obtain ⟨e, he⟩ := hx s hs
  refine ⟨.during stage e, ?_⟩
  change Except.mapError (Error.during stage) (x.outcome s) = _
  rw [he]
  rfl

theorem balks_bind_liftExcept {r : Except Error α} (hf : ∀ a, (f a).Balks) :
    (liftM r >>= f : Search β).Balks := by
  cases r with
  | ok a => exact hf a
  | error e => exact fun s _ => ⟨e, rfl⟩

theorem balks_bind_watched {y : Watched α}
    (hf : ∀ s : Signal, s.raised = true → ∃ e : Error, f (y.run s).1 = throw e) :
    (liftM y >>= f : Search β).Balks := by
  intro s hs
  obtain ⟨e, he⟩ := hf s hs
  refine ⟨e, ?_⟩
  change ((f (y.run s).1).run.run (y.run s).2).1 = .error e
  rw [he]
  rfl

theorem balks_check : Signal.check.Balks := by
  refine balks_bind_watched fun s hs => ⟨.cancelled, ?_⟩
  rw [Signal.read_of_raised hs]
  rfl

end Search

namespace Enumeration

variable {σ : Type} {step : σ → Assignment → Watched σ} {s : Signal}

theorem consume_of_raised (hs : s.raised = true) (state : σ) (e : Enumeration) :
    ((e.consume true step state).run s).1 = (state, true) := by
  obtain ⟨s', seen⟩ : ∃ s', (Signal.readIf true).run s = (true, s') :=
    ⟨_, Prod.ext (Signal.read_of_raised hs) rfl⟩
  rw [consume_eq, StateT.run_bind, seen]
  rfl

theorem collect_of_raised (hs : s.raised = true) (e : Enumeration) :
    (e.collect.run s).1 = ([], true) := by
  change (fun r : List Assignment × Bool => (r.1.reverse, r.2))
    ((e.consume true (fun as a => pure (a :: as)) []).run s).1 = _
  rw [consume_of_raised hs]
  rfl

end Enumeration

namespace Announcement

variable {agents : List Agent} {stage : Stage}

theorem balks_tryOut (s : Formula) : (tryOut stage agents s).Balks :=
  Search.balks_check.during.bind

theorem balks_firstSolution {candidates : List Formula} (h : candidates ≠ []) :
    (firstSolution stage agents candidates).Balks := by
  cases candidates with
  | nil => exact absurd rfl h
  | cons s candidates => exact (balks_tryOut s).bind

theorem balks_solutions {candidates : List Formula} (h : candidates ≠ []) :
    (solutions stage agents candidates).Balks := by
  cases candidates with
  | nil => exact absurd rfl h
  | cons s candidates => exact (balks_tryOut s).bind.bind

theorem balks_goalModels (agents : List Agent) : (goalModels agents).Balks := by
  refine Search.balks_bind_watched fun s hs => ⟨.during .goalModels .cancelled, ?_⟩
  rw [Enumeration.collect_of_raised hs]
  rfl

theorem balks_classes (agents : List Agent) (search : Widening) :
    (classes agents search).Balks := by
  cases search with
  | byDistance => exact Search.balks_bind_liftExcept fun _ => (balks_goalModels agents).bind
  | byOrder => exact Search.balks_bind_liftExcept fun _ => (balks_goalModels agents).bind

theorem onVocabulary_ne_nil (vs : Vocabulary) : Assignment.onVocabulary vs ≠ [] :=
  List.ne_nil_of_mem (Assignment.mem_onVocabulary.mpr (Assignment.isOn_on (fun _ => true) vs))

theorem balks_byRefinement (h : agents ≠ []) : (byRefinement agents).Balks := by
  unfold byRefinement
  rw [if_neg (by simpa using h)]
  refine balks_firstSolution ?_
  unfold refinements
  simpa using onVocabulary_ne_nil _

theorem sizes_eq_cons (agents : List Agent) : ∃ ns, sizes agents = 0 :: ns :=
  ⟨_, List.range_succ_eq_map⟩

theorem candidates_zero_ne_nil (agents : List Agent) : candidates agents 0 ≠ [] := by
  unfold candidates choose
  exact List.cons_ne_nil _ _

theorem balks_byExhaustion (h : agents ≠ []) : (byExhaustion agents).Balks := by
  unfold byExhaustion
  rw [if_neg (by simpa using h)]
  obtain ⟨ns, hns⟩ := sizes_eq_cons agents
  rw [hns, List.findSomeM?_cons]
  exact (balks_firstSolution (candidates_zero_ne_nil agents)).bind

theorem balks_allSolutions (agents : List Agent) : (allSolutions agents).Balks := by
  unfold allSolutions
  obtain ⟨ns, hns⟩ := sizes_eq_cons agents
  rw [hns, List.mapM_cons]
  exact (balks_solutions (candidates_zero_ne_nil agents)).bind.bind

end Announcement

theorem Strategy.balks_search (strategy : Strategy) {agents : List Agent} (h : agents ≠ []) :
    (strategy.search agents).Balks := by
  cases strategy with
  | refinement => exact Announcement.balks_byRefinement h
  | exhaustion => exact Announcement.balks_byExhaustion h
  | widening search => exact (Announcement.balks_classes agents search).bind

/-! ## Cancellation -/

theorem Strategy.resolve_eq (strategy : Strategy) (agents : List Agent) :
    strategy.resolve agents = strategy.ending agents :=
  Watched.Returns.unwatched_eq (strategy.returns_search agents)

/-- **Cancellation changes no answer.** Under any signal, a search for an announcement ends as it
does in silence or gives up because the signal is raised; so do the search for all solutions, a
revision and the test of an announcement. In silence, strategies fail only for agents that they are
not made for. Under a signal that is raised from the start no strategy answers, if there are agents
at all, nor does the search for all solutions. -/
theorem cancellation_safe :
    (∀ (strategy : Strategy) (agents : List Agent) (s : Signal),
      (strategy.search agents).EndsAs s (strategy.resolve agents)) ∧
    (∀ agents : List Agent, ∃ all, Signal.unwatched (Announcement.allSolutions agents) = .ok all ∧
      ∀ s : Signal, (Announcement.allSolutions agents).EndsAs s (.ok all)) ∧
    (∀ (r : Revision) (k : Belief) (p : Formula) (s : Signal),
      (r.attempt k p).EndsAs s (.ok (r.revise k p))) ∧
    (∀ (agent : Agent) (p : Formula) (s : Signal),
      (agent.test p).EndsAs s (.ok (agent.isSolvedBy p))) ∧
    (∀ (strategy : Strategy) (agents : List Agent) (e : Error),
      strategy.resolve agents = .error e → e.IsConfiguration) ∧
    (∀ (strategy : Strategy) (agents : List Agent) (s : Signal),
      agents ≠ [] → s.raised = true → ∀ found, (strategy.search agents).outcome s ≠ .ok found) ∧
    ∀ (agents : List Agent) (s : Signal),
      s.raised = true → ∀ all, (Announcement.allSolutions agents).outcome s ≠ .ok all := by
  refine ⟨?_, ?_, ?_, ?_, ?_, ?_, ?_⟩
  · intro strategy agents s
    rw [strategy.resolve_eq]
    exact (strategy.returns_search agents).endsAs s
  · intro agents
    have returns := Announcement.returns_allSolutions agents
    exact ⟨_, Watched.Returns.unwatched_eq returns, returns.endsAs⟩
  · exact fun r k p => (r.returns_attempt k p).endsAs
  · exact fun agent p => (agent.returns_test p).endsAs
  · intro strategy agents e h
    rw [strategy.resolve_eq] at h
    exact strategy.isConfiguration_of_ending h
  · intro strategy agents s some raised found ok
    obtain ⟨e, failed⟩ := strategy.balks_search some s raised
    cases ok.symm.trans failed
  · intro agents s raised all ok
    obtain ⟨e, failed⟩ := Announcement.balks_allSolutions agents s raised
    cases ok.symm.trans failed

/-- An agent that revises by consistency, and a signal raised before the search. -/
theorem cancellation_safe_one_agent :
    ((Strategy.widening .byOrder).resolve [⟨{.var "p"}, .var "q", .consistency⟩] =
        .error (.noComparator .byOrder 0) ∧
      (Error.noComparator .byOrder 0).IsConfiguration) ∧
    [(⟨{.var "p"}, .var "q", .consistency⟩ : Agent)] ≠ [] ∧
    ({ raised := true } : Signal).raised = true ∧
    (∀ found, (Strategy.refinement.search [⟨{.var "p"}, .var "q", .consistency⟩]).outcome
      { raised := true } ≠ .ok found) ∧
    ∀ all, (Announcement.allSolutions [⟨{.var "p"}, .var "q", .consistency⟩]).outcome
      { raised := true } ≠ .ok all :=
  have failed : (Strategy.widening .byOrder).resolve [⟨{.var "p"}, .var "q", .consistency⟩] =
      .error (.noComparator .byOrder 0) := by decide +kernel
  ⟨⟨failed, cancellation_safe.2.2.2.2.1 _ _ _ failed⟩, List.cons_ne_nil _ _, rfl,
    cancellation_safe.2.2.2.2.2.1 _ _ _ (List.cons_ne_nil _ _) rfl,
    cancellation_safe.2.2.2.2.2.2 _ _ rfl⟩

end BeliefRevision
