import BeliefRevision.Announcement.Strategy
import BeliefRevision.Proofs.Comparison

/-!
# What searches end with

Everything that runs under a signal ends with a value that does not depend on the signal, unless it
gives up (`Watched.Returns`, `Search.Returns`). Here the values are named, from the run through the
models of a formula up to the searches among candidates:

* `Enumeration.returns_consume`: a run through the models is complete or known to be stopped.
* `Revision.returns_attempt`, `Agent.returns_test`: revisions and tests of announcements.
* `Announcement.returns_byRefinement`, `returns_byExhaustion`, `returns_allSolutions`: searches
  among listed candidates find what `List.find?` and `List.filter` find.
-/

namespace BeliefRevision

/-! ## Runs through models -/

namespace Enumeration

variable {σ τ : Type} {heed : Bool} {step : σ → Assignment → Watched σ} {s : σ} {e : Enumeration}

theorem consume_eq : consume heed step s e = Signal.readIf heed >>= fun seen =>
    if seen then pure (s, true)
    else
      match e.front.step e.formula.promise e.formula with
      | none => pure (s, e.stopped)
      | some (none, front) => consume heed step s { e with front }
      | some (some a, front) => step s a >>= fun s => consume heed step s { e with front } := by
  rw [consume]
  congr 1
  funext seen
  cases seen with
  | true => rfl
  | false =>
    simp only [Bool.false_eq_true, if_false]
    split <;> simp_all

/-- **A run through the models is complete or known to be stopped.** If every step does to a state
what `next` does to a related one, then the run does what folding `next` over the models does. -/
theorem returns_consume (heed : Bool) {next : τ → Assignment → τ} {related : σ → τ → Prop}
    (simulates : ∀ s t a, related s t → ∃ s', (step s a).Gives s' ∧ related s' (next t a))
    {t : τ} (h : related s t) (e : Enumeration) :
    ∃ s', (e.consume heed step s).Returns (s', e.stopped) (fun r => heed = true ∧ r.2 = true) ∧
      related s' ((e.front.models e.formula.promise e.formula).foldl next t) := by
  induction hn : e.size using Nat.strongRecOn generalizing e s t with
  | ind n ih =>
    subst hn
    -- The signal may be found raised before any step; what is then passed on has the flag set.
    have pass (s : σ) (x : Watched (σ × Bool)) (seen : Bool) (h : heed = true ∧ seen = true) :
        ∃ b, (if seen then pure (s, true) else x) = pure b ∧ heed = true ∧ b.2 = true := by
      rw [h.2]
      exact ⟨(s, true), rfl, h.1, rfl⟩
    rw [consume_eq]
    cases hs : e.front.step e.formula.promise e.formula with
    | none =>
      rw [Frontier.models_of_step_eq_none hs]
      exact ⟨s, (Signal.returns_readIf heed).bind (Watched.returns_pure _) (pass s _), h⟩
    | some found =>
      obtain ⟨found, front⟩ := found
      rw [Frontier.models_of_step_eq_some hs]
      have smaller : Enumeration.size { e with front } < e.size := Frontier.size_step_lt hs
      cases found with
      | none =>
        obtain ⟨s', rest, related'⟩ := ih _ smaller h { e with front } rfl
        exact ⟨s', (Signal.returns_readIf heed).bind rest (pass s _), related'⟩
      | some a =>
        obtain ⟨s₁, first, related₁⟩ := simulates s t a h
        obtain ⟨s₂, rest, related₂⟩ := ih _ smaller related₁ { e with front } rfl
        exact ⟨s₂, (Signal.returns_readIf heed).bind (first.bind rest) (pass s _), related₂⟩

theorem returns_collect (e : Enumeration) :
    e.collect.Returns (e.front.models e.formula.promise e.formula, e.stopped)
      (fun r => r.2 = true) := by
  have simulates (as bs : List Assignment) (a : Assignment) (h : as = bs) :
      ∃ as', Watched.Gives (pure (a :: as)) as' ∧ as' = a :: bs :=
    ⟨a :: as, Watched.returns_pure _, congrArg (a :: ·) h⟩
  obtain ⟨as, run, eq⟩ := returns_consume true simulates rfl e
  rw [List.foldl_flip_cons_eq_append', List.append_nil] at eq
  refine run.bind ?_ fun r stopped => ⟨(r.1.reverse, r.2), rfl, stopped.2⟩
  dsimp only
  rw [eq, List.reverse_reverse]
  exact Watched.returns_pure _

end Enumeration

/-! ## Revisions -/

/-- The assignments of a list to which none is closer. -/
def Comparison.nearest (cmp : Comparison) (as : List Assignment) : List Assignment :=
  as.foldl cmp.keepNearest []

namespace Revision

variable {p : Preference} {k : Belief} {s : Formula}

theorem returns_nearestModels (p : Preference) (heed : Bool) (k : Belief) (s : Formula) :
    (nearestModels p heed k s).Returns ((p.comparison k).nearest (completed k s).models, false)
      (fun r => heed = true ∧ r.2 = true) := by
  have simulates (state : List Assignment × Comparator) (as : List Assignment) (a : Assignment)
      (h : state.1 = as ∧ state.2.Judges (p.comparison k)) :
      ∃ state', (state.2.keepNearest state.1 a).Gives state' ∧
        state'.1 = (p.comparison k).keepNearest as a ∧ state'.2.Judges (p.comparison k) := by
    obtain ⟨rfl, judges⟩ := h
    obtain ⟨c', kept, judges'⟩ := Comparator.gives_keepNearest judges state.1 a
    exact ⟨_, kept, rfl, judges'⟩
  have start : (([], p.comparator k) : List Assignment × Comparator).1 = [] ∧
      (p.comparator k).Judges (p.comparison k) := ⟨rfl, Comparator.judges_comparison p k⟩
  obtain ⟨state, run, kept, -⟩ :=
    Enumeration.returns_consume heed simulates start (completed k s).enumerate
  refine run.bind ?_ fun r stopped => ⟨(r.1.1, r.2), rfl, stopped⟩
  dsimp only
  rw [kept]
  exact Watched.returns_pure _

theorem gives_apply_nearest :
    ((nearest p).apply k s).Gives (believing ((p.comparison k).nearest (completed k s).models)) :=
  (returns_nearestModels p false k s).bind (Watched.returns_pure _) fun _ stopped => by
    cases stopped.1

/-- **Revision by nearness**, without its comparators. -/
theorem revise_nearest :
    (nearest p).revise k s = believing ((p.comparison k).nearest (completed k s).models) :=
  gives_apply_nearest.unwatched_eq

/-- A revision that is attempted ends as the revision does. -/
theorem returns_attempt (r : Revision) (k : Belief) (s : Formula) :
    (r.attempt k s).Returns (.ok (r.revise k s)) := by
  induction r generalizing s with
  | consistency => exact Search.returns_check.bind_ok (Search.returns_pure _)
  | nearest p =>
    rw [revise_nearest]
    refine Search.returns_bind_watched (returns_nearestModels p true k s)
      (Search.returns_pure _) fun r stopped => ?_
    obtain ⟨as, rfl⟩ : ∃ as, r = (as, true) := ⟨r.1, Prod.ext rfl stopped.2⟩
    exact ⟨_, rfl, rfl⟩
  | trusting t r ih => exact ih (t.understand s)

end Revision

theorem Agent.returns_test (agent : Agent) (s : Formula) :
    (agent.test s).Returns (.ok (agent.isSolvedBy s)) := by
  refine (Search.returns_liftWatched Signal.gives_countRevision).bind_ok ?_
  exact (agent.revision.returns_attempt agent.initial s).bind_ok (Search.returns_pure _)

/-! ## Searches among candidates -/

namespace Announcement

variable {agents : List Agent} {stage : Stage}

/-- Whether the announcement of a sentence brings all agents to their goals. -/
def solves (agents : List Agent) (s : Formula) : Bool := agents.all fun agent => agent.isSolvedBy s

theorem returns_solvesAll (agents : List Agent) (s : Formula) :
    (solvesAll agents s).Returns (.ok (solves agents s)) :=
  Search.returns_allM fun agent => (agent.returns_test s).during

theorem returns_tryOut (s : Formula) : (tryOut stage agents s).Returns (.ok (solves agents s)) :=
  Search.returns_check.during.bind_ok (returns_solvesAll agents s)

theorem returns_firstSolution (candidates : List Formula) :
    (firstSolution stage agents candidates).Returns (.ok (candidates.find? (solves agents))) :=
  Search.returns_findM? returns_tryOut

theorem returns_solutions (candidates : List Formula) :
    (solutions stage agents candidates).Returns (.ok (candidates.filter (solves agents))) :=
  Search.returns_filterM returns_tryOut

/-- The first of the candidates that solves all agents; anything does if there are no agents. -/
def found (agents : List Agent) (candidates : List Formula) : Option Formula :=
  if agents.isEmpty then some .top else candidates.find? (solves agents)

theorem returns_byRefinement (agents : List Agent) :
    (byRefinement agents).Returns (.ok (found agents (refinements agents))) := by
  unfold byRefinement found
  split
  · exact Search.returns_pure _
  · exact returns_firstSolution _

/-- All candidates of the exhaustive search, in their order. -/
def allCandidates (agents : List Agent) : List Formula := (sizes agents).flatMap (candidates agents)

theorem returns_byExhaustion (agents : List Agent) :
    (byExhaustion agents).Returns (.ok (found agents (allCandidates agents))) := by
  unfold byExhaustion found
  split
  · exact Search.returns_pure _
  · rw [allCandidates, List.find?_flatMap]
    exact Search.returns_findSomeM? fun n => returns_firstSolution _

theorem returns_allSolutions (agents : List Agent) :
    (allSolutions agents).Returns (.ok ((allCandidates agents).filter (solves agents))) := by
  rw [allCandidates, List.filter_flatMap]
  exact (Search.returns_mapM fun n _ => returns_solutions _).bind_ok (Search.returns_pure _)

end Announcement

end BeliefRevision
