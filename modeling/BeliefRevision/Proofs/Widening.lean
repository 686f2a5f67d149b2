import Mathlib.Data.List.Forall2
import BeliefRevision.Proofs.Levels
import BeliefRevision.Proofs.Outcome

/-!
# What widening searches end with

The rounds of a widening search test their announcements by the agents' own revisions, under the
signal. `Pursuit.outcome` is the same loop with every agent marked by the truth about it, and
`returns_run` says that this is how a search ends unless it gives up. `returns_byWidening` adds what
comes before the rounds: the agents' comparators, the assignments that meet some goal, and the
classes that they fall into.
-/

namespace BeliefRevision

/-! ## Computations that may fail -/

section Failure

variable {α β : Type} {x : Except Error α} {f : α → Except Error β} {as : List α} {bs : List β}
  {b : β} {e : Error}

theorem bind_eq_ok_iff : x >>= f = .ok b ↔ ∃ a, x = .ok a ∧ f a = .ok b := by
  constructor
  · intro h
    cases x with
    | ok a => exact ⟨a, rfl, h⟩
    | error e => cases h
  · rintro ⟨a, rfl, h⟩
    exact h

theorem bind_eq_error_iff :
    x >>= f = .error e ↔ x = .error e ∨ ∃ a, x = .ok a ∧ f a = .error e := by
  constructor
  · intro h
    cases x with
    | ok a => exact Or.inr ⟨a, rfl, h⟩
    | error e' =>
      cases h
      exact Or.inl rfl
  · rintro (rfl | ⟨a, rfl, h⟩)
    · rfl
    · exact h

/-- A list is mapped without failure element by element. -/
theorem forall₂_of_mapM_eq_ok (h : as.mapM f = .ok bs) :
    List.Forall₂ (fun a b => f a = .ok b) as bs := by
  induction as generalizing bs with
  | nil =>
    cases h
    exact List.Forall₂.nil
  | cons a as ih =>
    rw [List.mapM_cons, bind_eq_ok_iff] at h
    obtain ⟨b, hb, h⟩ := h
    obtain ⟨bs', hbs, h⟩ := bind_eq_ok_iff.mp h
    cases h
    exact List.Forall₂.cons hb (ih hbs)

theorem exists_of_mapM_eq_error (h : as.mapM f = .error e) : ∃ a ∈ as, f a = .error e := by
  induction as with
  | nil => cases h
  | cons a as ih =>
    rw [List.mapM_cons, bind_eq_error_iff] at h
    rcases h with failed | ⟨b, -, h⟩
    · exact ⟨a, List.mem_cons_self, failed⟩
    · rcases bind_eq_error_iff.mp h with later | ⟨bs, -, h⟩
      · obtain ⟨a', ha', failed⟩ := ih later
        exact ⟨a', List.mem_cons_of_mem a ha', failed⟩
      · cases h

end Failure

theorem forall₂_of_mapM_zipIdx {α β : Type} {f : α × Nat → Except Error β} {as : List α}
    {bs : List β} (h : as.zipIdx.mapM f = .ok bs) :
    List.Forall₂ (fun a b => ∃ i, f (a, i) = .ok b) as bs := by
  have all : List.Forall₂ (fun a b => ∃ i, f (a, i) = .ok b) (as.zipIdx.map Prod.fst) bs := by
    rw [List.forall₂_map_left_iff]
    exact (forall₂_of_mapM_eq_ok h).imp fun a b hb => ⟨a.2, hb⟩
  rwa [List.zipIdx_map_fst] at all

theorem forall₂_comp {α β γ : Type} {R : α → β → Prop} {S : β → γ → Prop} {as : List α}
    {bs : List β} {cs : List γ} (h : List.Forall₂ R as bs) (h' : List.Forall₂ S bs cs) :
    List.Forall₂ (fun a c => ∃ b, R a b ∧ S b c) as cs := by
  induction h generalizing cs with
  | nil =>
    cases h'
    exact List.Forall₂.nil
  | cons hab _ ih =>
    cases h' with
    | cons hbc rest => exact List.Forall₂.cons ⟨_, hab, hbc⟩ (ih rest)

theorem forall_of_forall₂ {α β : Type} {R : α → β → Prop} {P : β → Prop} {as : List α}
    {bs : List β} (h : List.Forall₂ R as bs) (imp : ∀ a b, R a b → P b) : ∀ b ∈ bs, P b := by
  induction h with
  | nil => exact fun _ hb => absurd hb List.not_mem_nil
  | cons hab _ ih => exact List.forall_mem_cons.mpr ⟨imp _ _ hab, ih⟩

/-! ## The classes of the agents -/

/-- The classes into which a search splits a list by a comparator. -/
def Comparator.split (search : Widening) (c : Comparator) (as : List Assignment) :
    List (List Assignment) :=
  match search, c with
  | .byDistance, .byDistance c => Buckets.classes c.trueDistance as
  | _, c => c.comparison.classes as

theorem Comparator.mem_of_mem_split {search : Widening} {c : Comparator}
    {as cls : List Assignment} {a : Assignment} (hcls : cls ∈ c.split search as) (ha : a ∈ cls) :
    a ∈ as := by
  unfold split at hcls
  split at hcls
  · exact (Buckets.levels_classes _ as).mem hcls ha
  · exact (Comparison.classes_perm as).mem_iff.mp (List.mem_flatten.mpr ⟨cls, hcls, ha⟩)

/-- Either way the classes are the levels of the comparator's comparison. -/
theorem Comparator.levels_split (search : Widening) (c : Comparator)
    [Std.TransCmp c.comparison] (as : List Assignment) :
    c.comparison.Levels as (c.split search as) := by
  unfold split
  split
  · exact Buckets.levels_classes _ as
  · exact Comparison.levels_classes as

theorem Comparator.eq_of_distance? {c : Comparator} {d : DistanceComparator}
    (h : c.distance? = some d) : c = .byDistance d := by
  cases c with
  | byDistance c =>
    cases h
    rfl
  | byOrder c => cases h

namespace Announcement

variable {agents : List Agent} {search : Widening}

/-- The sentence that some agent's goal is met, put so that it mentions the variables of all
agents. -/
def someGoal (agents : List Agent) : Formula :=
  (Formula.disjunction (agents.map Agent.goal)).and
    (Formula.closure (Agent.jointVocabulary agents).toList)

theorem returns_goalModels (agents : List Agent) :
    (goalModels agents).Returns (.ok (someGoal agents).models) := by
  refine Search.returns_bind_watched (someGoal agents).enumerate.returns_collect
    (Search.returns_pure _) fun r stopped => ?_
  obtain ⟨as, rfl⟩ : ∃ as, r = (as, true) := ⟨r.1, Prod.ext rfl stopped⟩
  exact ⟨_, rfl, rfl⟩

theorem comparators_eq_ok {cs : List Comparator} (h : comparators search agents = .ok cs) :
    List.Forall₂ (fun agent c => agent.revision.comparator? agent.initial = some c) agents cs := by
  refine (forall₂_of_mapM_zipIdx h).imp ?_
  rintro agent c ⟨i, hc⟩
  dsimp only at hc
  split at hc
  · cases hc
    assumption
  · cases hc

theorem distanceComparators_eq_ok {cs : List DistanceComparator}
    (h : distanceComparators agents = .ok cs) :
    List.Forall₂ (fun agent c => agent.revision.comparator? agent.initial = some (.byDistance c))
      agents cs := by
  obtain ⟨all, hall, h⟩ := bind_eq_ok_iff.mp h
  refine (forall₂_comp (comparators_eq_ok hall) (forall₂_of_mapM_zipIdx h)).imp ?_
  rintro agent d ⟨c, hc, i, hd⟩
  dsimp only at hd
  split at hd
  · next hcd =>
    cases hd
    rw [hc, Comparator.eq_of_distance? hcd]
  · cases hd

theorem faithful_of_comparator? {r : Revision} {k : Belief} {c : Comparator}
    (h : r.comparator? k = some c) : c.Faithful := by
  cases r with
  | nearest p =>
    cases h
    exact (Comparator.judges_comparison p k).faithful
  | consistency => cases h
  | trusting t r => cases h

/-- The classes that a search ends up with for the agents. -/
def classesOf (agents : List Agent) : Widening → Except Error (List (List (List Assignment)))
  | .byDistance => do
    let cs ← distanceComparators agents
    .ok (cs.map fun c => Buckets.classes c.trueDistance (someGoal agents).models)
  | .byOrder => do
    let cs ← comparators .byOrder agents
    .ok (cs.map fun c => c.comparison.classes (someGoal agents).models)

theorem returns_classes (agents : List Agent) (search : Widening) :
    (classes agents search).Returns (classesOf agents search) := by
  cases search with
  | byDistance =>
    refine (Search.returns_liftExcept _).bind fun cs hcs => ?_
    have faithful : ∀ c ∈ cs, c.Faithful :=
      forall_of_forall₂ (distanceComparators_eq_ok hcs) fun _ _ h => faithful_of_comparator? h
    exact (returns_goalModels agents).bind_ok (Search.returns_mapM fun c hc =>
      Search.returns_liftWatched (DistanceComparator.gives_classes (faithful c hc) _))
  | byOrder =>
    refine (Search.returns_liftExcept _).bind fun cs hcs => ?_
    have faithful : ∀ c ∈ cs, c.Faithful :=
      forall_of_forall₂ (comparators_eq_ok hcs) fun _ _ h => faithful_of_comparator? h
    exact (returns_goalModels agents).bind_ok (Search.returns_mapM fun c hc =>
      Search.returns_liftWatched (Comparator.gives_classes ⟨faithful c hc, rfl⟩ _))

/-- Every agent has the classes that its own comparator makes. -/
theorem classesOf_eq_ok {classes : List (List (List Assignment))}
    (h : classesOf agents search = .ok classes) :
    List.Forall₂ (fun agent own => ∃ c, agent.revision.comparator? agent.initial = some c ∧
      own = c.split search (someGoal agents).models) agents classes := by
  cases search with
  | byDistance =>
    obtain ⟨cs, hcs, h⟩ := bind_eq_ok_iff.mp h
    cases h
    rw [List.forall₂_map_right_iff]
    exact (distanceComparators_eq_ok hcs).imp fun agent c hc => ⟨_, hc, rfl⟩
  | byOrder =>
    obtain ⟨cs, hcs, h⟩ := bind_eq_ok_iff.mp h
    cases h
    rw [List.forall₂_map_right_iff]
    exact (comparators_eq_ok hcs).imp fun agent c hc => ⟨c, hc, rfl⟩

end Announcement

/-! ## Rounds -/

namespace Prospect

/-- What one round does to the agents and to the verdicts, when it takes place. -/
inductive Widens : Verdicts → List Prospect → Verdicts → List Prospect → Prop where
  | done (v : Verdicts) : Widens v [] v []
  | rest {v v' : Verdicts} {p : Prospect} {ps ps' : List Prospect} (solved : p.solved = true)
      (others : Widens v ps v' ps') : Widens v (p :: ps) v' (p :: ps')
  | take {v u v' : Verdicts} {p : Prospect} {ps ps' : List Prospect} {next : List Assignment}
      {classes : List (List Assignment)} (unsolved : p.solved = false)
      (left : p.classes = next :: classes) (judged : v.judge p.agent.goal next = .ok u)
      (others : Widens u ps v' ps') : Widens v (p :: ps) v' ({ p with classes } :: ps')

theorem widens_of_widen {v v' : Verdicts} {ps ps' : List Prospect}
    (h : widen v ps = .ok (some (v', ps'))) : Widens v ps v' ps' := by
  induction ps generalizing v v' ps' with
  | nil =>
    cases h
    exact .done v
  | cons p ps ih =>
    unfold widen at h
    split at h
    · next solved =>
      obtain ⟨widened, hw, h⟩ := bind_eq_ok_iff.mp h
      obtain ⟨⟨w, qs⟩, rfl, eq⟩ := Option.map_eq_some_iff.mp (Except.ok.inj h)
      cases eq
      exact .rest solved (ih hw)
    · next unsolved =>
      split at h
      · cases h
      · next next classes left =>
        obtain ⟨u, judged, h⟩ := bind_eq_ok_iff.mp h
        obtain ⟨widened, hw, h⟩ := bind_eq_ok_iff.mp h
        obtain ⟨⟨w, qs⟩, rfl, eq⟩ := Option.map_eq_some_iff.mp (Except.ok.inj h)
        cases eq
        exact .take (Bool.not_eq_true _ ▸ unsolved) left judged (ih hw)

theorem Widens.map_agent {v v' : Verdicts} {ps ps' : List Prospect} (h : Widens v ps v' ps') :
    ps'.map agent = ps.map agent := by
  induction h with
  | done => rfl
  | rest _ _ ih => rw [List.map_cons, List.map_cons, ih]
  | take _ _ _ _ ih => rw [List.map_cons, List.map_cons, ih]

end Prospect

namespace Pursuit

theorem widens_of_round {s s' : Pursuit} (h : s.round = .ok (some s')) :
    Prospect.Widens s.verdicts s.prospects s'.verdicts s'.prospects ∧
      s'.announcement = s'.verdicts.announcement := by
  obtain ⟨widened, hw, h⟩ := bind_eq_ok_iff.mp h
  obtain ⟨⟨v, ps⟩, rfl, rfl⟩ := Option.map_eq_some_iff.mp (Except.ok.inj h)
  exact ⟨Prospect.widens_of_widen hw, rfl⟩

/-- The search with every agent marked by whether the current announcement solves it. -/
def assess (s : Pursuit) : Pursuit :=
  s.mark (s.prospects.map fun p => p.agent.isSolvedBy s.announcement)

theorem mem_start {agents : List Agent} {classes : List (List (List Assignment))} {p : Prospect}
    (hp : p ∈ (start agents classes).prospects) :
    p.agent ∈ agents ∧ p.classes ∈ classes ∧ p.solved = false := by
  unfold start at hp
  rw [← List.map_uncurry_zip_eq_zipWith] at hp
  obtain ⟨⟨agent, own⟩, hentry, rfl⟩ := List.mem_map.mp hp
  exact ⟨(List.of_mem_zip hentry).1, (List.of_mem_zip hentry).2, rfl⟩

theorem prospects_assess (s : Pursuit) : s.assess.prospects =
    s.prospects.map fun p => { p with solved := p.agent.isSolvedBy s.announcement } := by
  unfold assess mark Prospect.mark
  dsimp only
  rw [List.zipWith_map_right, List.zipWith_self]

theorem returns_recheck (s : Pursuit) :
    s.recheck.Returns (.ok (s.prospects.map fun p => p.agent.isSolvedBy s.announcement)) :=
  Search.returns_mapM fun p _ => (p.agent.returns_test s.announcement).during

/-- What `run` ends with. -/
def outcome (s : Pursuit) : Except Error (Option Formula) :=
  if _hs : s.isDone then .ok (some s.announcement)
  else
    match _h : s.round with
    | .error e => .error e
    | .ok none => .ok none
    | .ok (some s) => outcome s.assess
termination_by s.remaining
decreasing_by exact remaining_mark_lt _ _hs _h

theorem returns_run (s : Pursuit) : s.run.Returns s.outcome := by
  fun_induction outcome s with
  | case1 s hs =>
    rw [run, dif_pos hs]
    exact Search.returns_pure _
  | case2 s hs e h =>
    rw [run, dif_neg hs]
    refine Search.returns_check.during.bind_ok ?_
    split <;> simp_all
    exact Watched.returns_pure _
  | case3 s hs h =>
    rw [run, dif_neg hs]
    refine Search.returns_check.during.bind_ok ?_
    split <;> simp_all
    exact Search.returns_pure _
  | case4 s hs s' h ih =>
    rw [run, dif_neg hs]
    refine Search.returns_check.during.bind_ok ?_
    split <;> simp_all
    exact (returns_recheck s').bind_ok ih

end Pursuit

namespace Announcement

/-- What `byWidening` ends with. -/
def widened (search : Widening) (agents : List Agent) : Except Error (Option Formula) := do
  let classes ← classesOf agents search
  (Pursuit.start agents classes).outcome

theorem returns_byWidening (search : Widening) (agents : List Agent) :
    (byWidening search agents).Returns (widened search agents) :=
  (returns_classes agents search).bind fun classes _ => (Pursuit.start agents classes).returns_run

end Announcement

/-- What a strategy ends with. -/
def Strategy.ending : Strategy → List Agent → Except Error (Option Formula)
  | refinement, agents => .ok (Announcement.found agents (Announcement.refinements agents))
  | exhaustion, agents => .ok (Announcement.found agents (Announcement.allCandidates agents))
  | widening search, agents => Announcement.widened search agents

theorem Strategy.returns_search (strategy : Strategy) (agents : List Agent) :
    (strategy.search agents).Returns (strategy.ending agents) := by
  cases strategy with
  | refinement => exact Announcement.returns_byRefinement agents
  | exhaustion => exact Announcement.returns_byExhaustion agents
  | widening search => exact Announcement.returns_byWidening search agents

end BeliefRevision
