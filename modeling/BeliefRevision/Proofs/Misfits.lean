import BeliefRevision.Proofs.Turns

/-!
# Agents that a search is not made for

A widening search asks the agents for their comparators, the first one first, and fails at the first
agent that has none. The search by distance asks again whether the comparators are by distance, so
its second failure is met only if all agents have comparators, however the two kinds of misfits are
mixed. Nothing else fails in silence: rounds evaluate goals where they have a value, and there are
no more rounds than classes.

* `mapM_zipIdx_eq_error_iff`: a numbered list is mapped up to the first failure.
* `Announcement.comparators_eq_error_iff`, `distanceComparators_eq_error_iff`: which agent is named.
* **`resolve_eq_error_iff`**: when and how strategies fail.
-/

namespace BeliefRevision

/-! ## First failures -/

section First

variable {α β : Type} {P : α → Prop} {as : List α} {i : Nat}

/-- The first of the elements with the property has the given index. -/
def IsFirst (P : α → Prop) (as : List α) (i : Nat) : Prop :=
  (∃ a, as[i]? = some a ∧ P a) ∧ ∀ j < i, ∀ a, as[j]? = some a → ¬P a

theorem isFirst_cons_of_pos {a : α} (h : P a) : IsFirst P (a :: as) i ↔ i = 0 := by
  constructor
  · intro first
    exact Nat.eq_zero_of_not_pos fun pos => first.2 0 pos a rfl h
  · rintro rfl
    exact ⟨⟨a, rfl, h⟩, fun j lt => absurd lt (Nat.not_lt_zero j)⟩

theorem isFirst_cons_of_neg {a : α} (h : ¬P a) :
    IsFirst P (a :: as) i ↔ ∃ j, i = j + 1 ∧ IsFirst P as j := by
  constructor
  · rintro ⟨⟨b, hb, pb⟩, before⟩
    cases i with
    | zero =>
      cases hb
      exact absurd pb h
    | succ j =>
      exact ⟨j, rfl, ⟨b, hb, pb⟩, fun l lt => before (l + 1) (Nat.succ_lt_succ lt)⟩
  · rintro ⟨j, rfl, first, before⟩
    refine ⟨first, fun l lt b hb => ?_⟩
    cases l with
    | zero =>
      cases hb
      exact h
    | succ l => exact before l (Nat.lt_of_succ_lt_succ lt) b hb

theorem exists_isFirst_iff : (∃ i, IsFirst P as i) ↔ ∃ a ∈ as, P a := by
  constructor
  · rintro ⟨i, ⟨a, ha, pa⟩, -⟩
    exact ⟨a, List.mem_of_getElem? ha, pa⟩
  · rintro ⟨a, ha, pa⟩
    induction as with
    | nil => cases ha
    | cons b as ih =>
      by_cases pb : P b
      · exact ⟨0, (isFirst_cons_of_pos pb).mpr rfl⟩
      · have later : a ∈ as := (List.mem_cons.mp ha).resolve_left fun eq => pb (eq ▸ pa)
        obtain ⟨i, first⟩ := ih later
        exact ⟨i + 1, (isFirst_cons_of_neg pb).mpr ⟨i, rfl, first⟩⟩

theorem isFirst_map {f : β → α} {bs : List β} :
    IsFirst P (bs.map f) i ↔ IsFirst (fun b => P (f b)) bs i := by
  simp [IsFirst]

theorem bind_ok_eq_error_iff {x : Except Error α} {f : α → β} {e : Error} :
    (x >>= fun a => .ok (f a)) = .error e ↔ x = .error e := by
  rw [bind_eq_error_iff]
  exact or_iff_left fun ⟨_, _, h⟩ => nomatch h

/-- **A numbered list is mapped up to the first failure**, which knows its number. -/
theorem mapM_zipIdx_eq_error_iff {f : α × Nat → Except Error β} {g : Nat → Error} {e : Error}
    (fails : ∀ a i, P a → f (a, i) = .error (g i)) (works : ∀ a i, ¬P a → ∃ b, f (a, i) = .ok b)
    (n : Nat) : (as.zipIdx n).mapM f = .error e ↔ ∃ i, IsFirst P as i ∧ e = g (n + i) := by
  induction as generalizing n with
  | nil =>
    refine iff_of_false nofun ?_
    rintro ⟨i, ⟨⟨a, ha, -⟩, -⟩, -⟩
    cases ha
  | cons a as ih =>
    rw [List.zipIdx_cons, List.mapM_cons]
    by_cases pa : P a
    · simp only [isFirst_cons_of_pos pa, exists_eq_left, Nat.add_zero, fails a n pa]
      exact ⟨fun h => (Except.error.inj h).symm, fun h => congrArg Except.error h.symm⟩
    · obtain ⟨b, hb⟩ := works a n pa
      have rest : (Except.ok b >>= fun b => (as.zipIdx (n + 1)).mapM f >>= fun bs =>
          .ok (b :: bs)) = .error e ↔ (as.zipIdx (n + 1)).mapM f = .error e :=
        bind_ok_eq_error_iff
      rw [hb]
      refine rest.trans ((ih (n + 1)).trans ?_)
      constructor
      · rintro ⟨i, first, rfl⟩
        exact ⟨i + 1, (isFirst_cons_of_neg pa).mpr ⟨i, rfl, first⟩, congrArg g (by omega)⟩
      · rintro ⟨_, first, rfl⟩
        obtain ⟨i, rfl, later⟩ := (isFirst_cons_of_neg pa).mp first
        exact ⟨i, later, congrArg g (by omega)⟩

end First

/-! ## Misfits -/

namespace Agent

/-- The agent does not revise by nearness. -/
def LacksComparator (agent : Agent) : Prop :=
  agent.revision = .consistency ∨ ∃ trust inner, agent.revision = .trusting trust inner

/-- The agent revises by nearness, but does not judge it by distance. -/
def LacksDistance (agent : Agent) : Prop :=
  ∃ order alarm, agent.revision = .nearest ⟨.order order, alarm⟩

theorem lacksComparator_iff {agent : Agent} :
    agent.LacksComparator ↔ agent.revision.comparator? agent.initial = none := by
  rcases h : agent.revision with _ | p | ⟨t, r⟩ <;> simp [LacksComparator, Revision.comparator?, h]

theorem lacksDistance_iff {agent : Agent} : agent.LacksDistance ↔
    ∃ c, agent.revision.comparator? agent.initial = some c ∧ c.distance? = none := by
  rcases h : agent.revision with _ | ⟨⟨⟩, a⟩ | ⟨t, r⟩ <;>
    simp [LacksDistance, Revision.comparator?, Preference.comparator, Comparator.distance?, h]

end Agent

namespace Announcement

variable {agents : List Agent} {search : Widening} {classes : List (List (List Assignment))}
  {e : Error}

theorem comparators_eq_error_iff : comparators search agents = .error e ↔
    ∃ i, IsFirst Agent.LacksComparator agents i ∧ e = .noComparator search i := by
  unfold comparators
  rw [mapM_zipIdx_eq_error_iff (P := Agent.LacksComparator) (g := .noComparator search)]
  · simp only [Nat.zero_add]
  · intro agent i lacks
    dsimp only
    rw [Agent.lacksComparator_iff.mp lacks]
  · intro agent i has
    rw [Agent.lacksComparator_iff, ← Ne, Option.ne_none_iff_exists'] at has
    obtain ⟨c, hc⟩ := has
    dsimp only
    rw [hc]
    exact ⟨c, rfl⟩

theorem exists_comparators_iff : (∃ cs, comparators search agents = .ok cs) ↔
    ∀ agent ∈ agents, ¬agent.LacksComparator := by
  cases h : comparators search agents with
  | ok cs =>
    refine iff_of_true ⟨cs, rfl⟩ fun agent hagent lacks => ?_
    obtain ⟨i, first⟩ := exists_isFirst_iff.mpr ⟨agent, hagent, lacks⟩
    cases h.symm.trans (comparators_eq_error_iff.mpr ⟨i, first, rfl⟩)
  | error e =>
    obtain ⟨i, first, -⟩ := comparators_eq_error_iff.mp h
    obtain ⟨agent, hagent, lacks⟩ := exists_isFirst_iff.mp ⟨i, first⟩
    exact iff_of_false nofun fun none => none agent hagent lacks

/-- The first comparator without a distance is that of the first agent that lacks a distance. -/
theorem isFirst_comparators_iff {cs : List Comparator} (h : comparators search agents = .ok cs)
    {i : Nat} :
    IsFirst (fun c => c.distance? = none) cs i ↔ IsFirst Agent.LacksDistance agents i := by
  have same : agents.map (fun agent => agent.revision.comparator? agent.initial) = cs.map some := by
    rw [← List.forall₂_eq_eq_eq, List.forall₂_map_left_iff, List.forall₂_map_right_iff]
    exact comparators_eq_ok h
  have first : IsFirst (fun c => ∃ d, c = some d ∧ d.distance? = none) (cs.map some) i ↔
      IsFirst (fun c => ∃ d, c = some d ∧ d.distance? = none)
        (agents.map fun agent => agent.revision.comparator? agent.initial) i := by rw [same]
  simpa only [isFirst_map, Option.some.injEq, exists_eq_left', ← Agent.lacksDistance_iff]
    using first

/-- **The search by distance asks for all comparators first**, and only then for distances. -/
theorem distanceComparators_eq_error_iff : distanceComparators agents = .error e ↔
    (∃ i, IsFirst Agent.LacksComparator agents i ∧ e = .noComparator .byDistance i) ∨
      (∀ agent ∈ agents, ¬agent.LacksComparator) ∧
        ∃ i, IsFirst Agent.LacksDistance agents i ∧ e = .noDistance i := by
  unfold distanceComparators
  rw [bind_eq_error_iff, comparators_eq_error_iff, ← exists_comparators_iff, ← exists_and_right]
  refine or_congr_right (exists_congr fun cs => and_congr_right fun hcs => ?_)
  rw [mapM_zipIdx_eq_error_iff (P := fun c : Comparator => c.distance? = none) (g := .noDistance)]
  · simp only [Nat.zero_add, isFirst_comparators_iff hcs]
  · intro c i lacks
    dsimp only
    rw [lacks]
  · intro c i has
    obtain ⟨d, hd⟩ := Option.ne_none_iff_exists'.mp has
    dsimp only
    rw [hd]
    exact ⟨d, rfl⟩

theorem classesOf_eq_error_iff : classesOf agents search = .error e ↔
    (∃ i, IsFirst Agent.LacksComparator agents i ∧ e = .noComparator search i) ∨
      search = .byDistance ∧ (∀ agent ∈ agents, ¬agent.LacksComparator) ∧
        ∃ i, IsFirst Agent.LacksDistance agents i ∧ e = .noDistance i := by
  cases search with
  | byDistance =>
    rw [classesOf, bind_ok_eq_error_iff, distanceComparators_eq_error_iff, and_iff_right rfl]
  | byOrder =>
    rw [classesOf, bind_ok_eq_error_iff, comparators_eq_error_iff, or_iff_left]
    exact fun ⟨byDistance, _⟩ => nomatch byDistance

/-- Nothing but the choice of comparators fails. -/
theorem widened_eq_error_iff :
    widened search agents = .error e ↔ classesOf agents search = .error e := by
  unfold widened
  rw [bind_eq_error_iff]
  refine or_iff_left ?_
  rintro ⟨classes, made, failed⟩
  obtain ⟨found, ok⟩ := Pursuit.outcome_eq_ok (judgeable_start made)
  cases ok.symm.trans failed

end Announcement

theorem Pursuit.remaining_start {agents : List Agent} {classes : List (List (List Assignment))}
    (h : agents.length = classes.length) :
    (start agents classes).remaining = (classes.map List.length).sum := by
  induction agents generalizing classes with
  | nil =>
    cases classes with
    | nil => rfl
    | cons own classes => cases h
  | cons agent agents ih =>
    cases classes with
    | nil => cases h
    | cons own classes =>
      rw [List.map_cons, List.sum_cons, ← ih (Nat.succ.inj h)]
      rfl

/-- **Strategies fail for misfits only, and name the first one.** In silence the search among
refinements and both exhaustive searches end with a result for any agents. A widening search fails
exactly if some agent revises by consistency or behind trust, or, for the search by distance, if
some agent judges nearness in another way. It then names the first agent that lacks a comparator,
or else the first one that lacks a distance. Once the classes are made, under any signal, no round
fails, and there are no more rounds than classes. -/
theorem resolve_eq_error_iff (agents : List Agent) :
    (∃ found, Strategy.refinement.resolve agents = .ok found) ∧
    (∃ found, Strategy.exhaustion.resolve agents = .ok found) ∧
    (∃ all, Signal.unwatched (Announcement.allSolutions agents) = .ok all) ∧
    ∀ search : Widening,
      ((∃ e, (Strategy.widening search).resolve agents = .error e) ↔
        (∃ agent ∈ agents, agent.LacksComparator) ∨
          search = .byDistance ∧ ∃ agent ∈ agents, agent.LacksDistance) ∧
      (∀ e, (Strategy.widening search).resolve agents = .error e ↔
        (∃ i, IsFirst Agent.LacksComparator agents i ∧ e = .noComparator search i) ∨
          search = .byDistance ∧ (∀ agent ∈ agents, ¬agent.LacksComparator) ∧
            ∃ i, IsFirst Agent.LacksDistance agents i ∧ e = .noDistance i) ∧
      ∀ (σ σ₀ : Signal) (classes : List (List (List Assignment))),
        (Announcement.classes agents search).run.run σ = (.ok classes, σ₀) →
          ∀ n s τ, (Pursuit.start agents classes).after σ₀ n = some (s, τ) →
            n ≤ (classes.map List.length).sum ∧ ∃ r, s.round = .ok r := by
  refine ⟨⟨_, Strategy.resolve_eq _ _⟩, ⟨_, Strategy.resolve_eq _ _⟩,
    ⟨_, Watched.Returns.unwatched_eq (Announcement.returns_allSolutions agents)⟩,
    fun search => ?_⟩
  have fails (e : Error) : (Strategy.widening search).resolve agents = .error e ↔
      (∃ i, IsFirst Agent.LacksComparator agents i ∧ e = .noComparator search i) ∨
        search = .byDistance ∧ (∀ agent ∈ agents, ¬agent.LacksComparator) ∧
          ∃ i, IsFirst Agent.LacksDistance agents i ∧ e = .noDistance i := by
    rw [Strategy.resolve_eq, Strategy.ending, Announcement.widened_eq_error_iff,
      Announcement.classesOf_eq_error_iff]
  refine ⟨?_, fails, fun σ σ₀ classes made n s τ h => ?_⟩
  · simp only [fails]
    constructor
    · rintro ⟨e, ⟨i, first, -⟩ | ⟨byDistance, -, i, first, -⟩⟩
      · exact Or.inl (exists_isFirst_iff.mp ⟨i, first⟩)
      · exact Or.inr ⟨byDistance, exists_isFirst_iff.mp ⟨i, first⟩⟩
    · intro misfit
      by_cases lacks : ∃ agent ∈ agents, agent.LacksComparator
      · obtain ⟨i, first⟩ := exists_isFirst_iff.mpr lacks
        exact ⟨_, Or.inl ⟨i, first, rfl⟩⟩
      · obtain ⟨byDistance, other⟩ := misfit.resolve_left lacks
        obtain ⟨i, first⟩ := exists_isFirst_iff.mpr other
        exact ⟨_, Or.inr ⟨byDistance, fun agent h h' => lacks ⟨agent, h, h'⟩, i, first, rfl⟩⟩
  · have ok : Announcement.classesOf agents search = .ok classes :=
      (Announcement.returns_classes agents search).outcome_eq_ok (congrArg Prod.fst made)
    have le := Pursuit.add_remaining_le_of_after h
    rw [Pursuit.remaining_start (Announcement.classesOf_eq_ok ok).length_eq] at le
    exact ⟨(Nat.le_add_right _ _).trans le,
      Pursuit.round_eq_ok (Pursuit.judgeable_after (Announcement.judgeable_start ok) h)⟩

/-- An agent that judges nearness in its own way, before one that does not judge it at all: the
search by distance names the second one. It names one of the first kind only among agents that all
judge nearness. A search by distance that does not fail, after its first round. -/
theorem resolve_eq_error_iff_two_agents :
    (Strategy.widening .byDistance).resolve
        [⟨{.var "p"}, .var "q", .nearest .fewestTrue⟩, ⟨{.var "p"}, .var "q", .consistency⟩] =
      .error (.noComparator .byDistance 1) ∧
    (Strategy.widening .byDistance).resolve
        [⟨{.var "p"}, .var "q", .nearest .hamming⟩, ⟨{.var "p"}, .var "q", .nearest .fewestTrue⟩] =
      .error (.noDistance 1) ∧
    ∃ classes σ₀, (Announcement.classes [⟨{.var "p"}, .var "p", .nearest .hamming⟩]
        .byDistance).run.run {} = (.ok classes, σ₀) ∧
      ∃ s τ, (Pursuit.start [⟨{.var "p"}, .var "p", .nearest .hamming⟩] classes).after σ₀ 1 =
          some (s, τ) ∧ 1 ≤ (classes.map List.length).sum ∧ ∃ r, s.round = .ok r := by
  have compares (k : Belief) (goal : Formula) (p : Preference) :
      ¬(⟨k, goal, .nearest p⟩ : Agent).LacksComparator := by
    rintro (h | ⟨_, _, h⟩) <;> cases h
  have distanced : ¬(⟨{.var "p"}, .var "q", .nearest .hamming⟩ : Agent).LacksDistance := by
    rintro ⟨_, _, h⟩
    cases h
  have lacks : (⟨{.var "p"}, .var "q", .consistency⟩ : Agent).LacksComparator := Or.inl rfl
  have other : (⟨{.var "p"}, .var "q", .nearest .fewestTrue⟩ : Agent).LacksDistance := ⟨_, _, rfl⟩
  have round : (((Announcement.classes [⟨{.var "p"}, .var "p", .nearest .hamming⟩]
      .byDistance).run.run {}).1.toOption.any fun classes =>
        ((Pursuit.start [⟨{.var "p"}, .var "p", .nearest .hamming⟩] classes).after
          ((Announcement.classes [⟨{.var "p"}, .var "p", .nearest .hamming⟩]
            .byDistance).run.run {}).2 1).isSome) = true := by decide +kernel
  refine ⟨?_, ?_, ?_⟩
  · refine (((resolve_eq_error_iff _).2.2.2 .byDistance).2.1 _).mpr (Or.inl ⟨1, ?_, rfl⟩)
    exact (isFirst_cons_of_neg (compares _ _ _)).mpr
      ⟨0, rfl, (isFirst_cons_of_pos lacks).mpr rfl⟩
  · refine (((resolve_eq_error_iff _).2.2.2 .byDistance).2.1 _).mpr
      (Or.inr ⟨rfl, ?_, 1, ?_, rfl⟩)
    · exact List.forall_mem_cons.mpr ⟨compares _ _ _, List.forall_mem_singleton.mpr
        (compares _ _ _)⟩
    · exact (isFirst_cons_of_neg distanced).mpr
        ⟨0, rfl, (isFirst_cons_of_pos other).mpr rfl⟩
  · rcases made : (Announcement.classes [⟨{.var "p"}, .var "p", .nearest .hamming⟩]
        .byDistance).run.run {} with ⟨e | classes, σ₀⟩
    · rw [made] at round
      cases round
    · rw [made] at round
      obtain ⟨⟨s, τ⟩, first⟩ := Option.isSome_iff_exists.mp round
      exact ⟨classes, σ₀, made, s, τ, first,
        ((resolve_eq_error_iff _).2.2.2 .byDistance).2.2 {} σ₀ classes made 1 s τ first⟩

end BeliefRevision
