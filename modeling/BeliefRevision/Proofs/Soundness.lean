import BeliefRevision.Proofs.Widening

/-!
# Announcements that are found solve all agents

Whatever a strategy finds has been tried on every agent, and the trial was not cut short. For the
strategies that go through a list of candidates this is how they search. A widening search instead
remembers between rounds which agents are solved; the invariant `Pursuit.Marked` says that it is
right about them, since the marks are renewed with every announcement (`marked_assess`), also for
agents that an earlier announcement had solved.

* `Pursuit.solves_of_outcome`: the invariant carries a run to its end.
* **`search_sound`**: under any signal, a strategy's announcement solves all agents, and so does
  every announcement of the exhaustive search for all solutions.
-/

namespace BeliefRevision

/-! ## Rounds -/

namespace Pursuit

variable {s s' : Pursuit} {a : Formula}

/-- The agents of the search. -/
def agents (s : Pursuit) : List Agent := s.prospects.map Prospect.agent

/-- The agents that are marked as solved are solved by the current announcement. -/
def Marked (s : Pursuit) : Prop :=
  ∀ p ∈ s.prospects, p.solved = true → p.agent.isSolvedBy s.announcement = true

theorem agents_round (h : s.round = .ok (some s')) : s'.agents = s.agents :=
  (widens_of_round h).1.map_agent

theorem agents_assess : s.assess.agents = s.agents := by
  unfold agents
  rw [prospects_assess, List.map_map]
  rfl

theorem agents_start {agents : List Agent} {classes : List (List (List Assignment))}
    (h : agents.length = classes.length) : (start agents classes).agents = agents := by
  induction agents generalizing classes with
  | nil => rfl
  | cons agent agents ih =>
    cases classes with
    | nil => cases h
    | cons own classes => exact congrArg (agent :: ·) (ih (Nat.succ.inj h))

theorem marked_start (agents : List Agent) (classes : List (List (List Assignment))) :
    (start agents classes).Marked := by
  intro p hp solved
  rw [(mem_start hp).2.2] at solved
  cases solved

/-- **Assessing a search renews all marks**, whatever they were before. -/
theorem marked_assess (s : Pursuit) : s.assess.Marked := by
  intro p hp solved
  rw [prospects_assess] at hp
  obtain ⟨q, -, rfl⟩ := List.mem_map.mp hp
  exact solved

/-- A run that finds an announcement has found one that solves all its agents. -/
theorem solves_of_outcome (marked : s.Marked) (h : s.outcome = .ok (some a)) :
    Announcement.solves s.agents a = true := by
  fun_induction outcome s with
  | case1 s done =>
    cases h
    refine List.all_eq_true.mpr fun agent hagent => ?_
    obtain ⟨p, hp, rfl⟩ := List.mem_map.mp hagent
    exact marked p hp (List.all_eq_true.mp done p hp)
  | case2 => cases h
  | case3 => cases h
  | case4 s _ s' hround ih =>
    -- A round may unmark agents, but it keeps them all, and the marks are renewed after it.
    rw [← agents_round hround, ← agents_assess]
    exact ih (marked_assess s') h

end Pursuit

/-! ## Strategies -/

namespace Announcement

variable {agents : List Agent} {search : Widening} {a : Formula}

theorem solves_of_widened (h : widened search agents = .ok (some a)) : solves agents a = true := by
  obtain ⟨classes, hclasses, h⟩ := bind_eq_ok_iff.mp h
  rw [← Pursuit.agents_start (classesOf_eq_ok hclasses).length_eq]
  exact Pursuit.solves_of_outcome (Pursuit.marked_start agents classes) h

theorem solves_of_found {candidates : List Formula} (h : found agents candidates = some a) :
    solves agents a = true := by
  unfold found at h
  split at h
  · next none =>
    rw [List.isEmpty_iff.mp none]
    rfl
  · exact List.find?_some h

end Announcement

theorem Strategy.solves_of_ending {strategy : Strategy} {agents : List Agent} {a : Formula}
    (h : strategy.ending agents = .ok (some a)) : Announcement.solves agents a = true := by
  cases strategy with
  | refinement => exact Announcement.solves_of_found (Except.ok.inj h)
  | exhaustion => exact Announcement.solves_of_found (Except.ok.inj h)
  | widening search => exact Announcement.solves_of_widened h

/-- **Announcements that are found solve all agents**: the one that any strategy ends with, and each
one that the search for all solutions ends with, whatever the signal does meanwhile. -/
theorem search_sound :
    (∀ (strategy : Strategy) (agents : List Agent) (s : Signal) (a : Formula),
      (strategy.search agents).outcome s = .ok (some a) →
        ∀ agent ∈ agents, agent.isSolvedBy a = true) ∧
    ∀ (agents : List Agent) (s : Signal) (as : List Formula),
      (Announcement.allSolutions agents).outcome s = .ok as →
        ∀ a ∈ as, ∀ agent ∈ agents, agent.isSolvedBy a = true := by
  constructor
  · intro strategy agents s a h
    have ending := (strategy.returns_search agents).outcome_eq_ok h
    exact List.all_eq_true.mp (Strategy.solves_of_ending ending)
  · intro agents s as h a ha
    have all := (Announcement.returns_allSolutions agents).outcome_eq_ok h
    rw [← Except.ok.inj all] at ha
    exact List.all_eq_true.mp (List.mem_filter.mp ha).2

/-- A search that ends just before the signal would be raised, by the second revision asked for, and
one for all solutions. -/
theorem search_sound_one_agent :
    (((Strategy.widening .byOrder).search
        [⟨{.var "p"}, .binary .xor (.var "p") (.var "q"), .nearest .hamming⟩]).outcome
          { atRevision := fun n => n == 2 } =
        .ok (some (.join .and [.var "p", .not (.var "q")])) ∧
      ∀ agent ∈ [(⟨{.var "p"}, .binary .xor (.var "p") (.var "q"), .nearest .hamming⟩ : Agent)],
        agent.isSolvedBy (.join .and [.var "p", .not (.var "q")]) = true) ∧
    (Announcement.allSolutions [⟨{.var "p"}, .var "p", .nearest .hamming⟩]).outcome {} =
        .ok [.var "p", .join .or [.var "p", .not (.var "p")]] ∧
      ∀ a ∈ [Formula.var "p", .join .or [.var "p", .not (.var "p")]],
        ∀ agent ∈ [(⟨{.var "p"}, .var "p", .nearest .hamming⟩ : Agent)],
          agent.isSolvedBy a = true :=
  have found : ((Strategy.widening .byOrder).search
      [⟨{.var "p"}, .binary .xor (.var "p") (.var "q"), .nearest .hamming⟩]).outcome
        { atRevision := fun n => n == 2 } =
      .ok (some (.join .and [.var "p", .not (.var "q")])) := by decide +kernel
  have all : (Announcement.allSolutions [⟨{.var "p"}, .var "p", .nearest .hamming⟩]).outcome {} =
      .ok [.var "p", .join .or [.var "p", .not (.var "p")]] := by decide +kernel
  ⟨⟨found, search_sound.1 _ _ _ _ found⟩, all, search_sound.2 _ _ _ all⟩

end BeliefRevision
