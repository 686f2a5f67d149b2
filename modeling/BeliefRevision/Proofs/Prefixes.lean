import BeliefRevision.Proofs.Turns

/-!
# Announcements by prefixes

An agent takes in its classes one after the other, so at any time it has taken in the first few of
them. How many depends on the rounds in which it was unsolved, and differs between the agents. But
the verdicts are shared: an assignment may be accepted for one agent and rejected for another one,
in whichever round. `Pursuit.TookIn` ties both together, and a round keeps it
(`Pursuit.TookIn.round`): the verdicts are those of the prefixes of classes taken in so far.

* `Pursuit.tookIn_after`: the invariant after any number of completed rounds.
* `Announcement.sumsUp_after`: the announcement sums up the verdicts.
* **`announcement_by_prefixes`**: the announcements of a whole run, under any signal.
-/

namespace BeliefRevision

variable {agents : List Agent} {classes : List (List (List Assignment))} {k : Nat → Nat}
  {a : Assignment} {x : Bool}

/-! ## Prefixes -/

/-- Some agent has the assignment in one of the classes up to its number `k i`, and its goal has the
given value there. -/
def JudgedWithin (agents : List Agent) (classes : List (List (List Assignment))) (k : Nat → Nat)
    (x : Bool) (a : Assignment) : Prop :=
  ∃ (i : Nat) (agent : Agent) (own : List (List Assignment)), agents[i]? = some agent ∧
    classes[i]? = some own ∧ (∃ cls ∈ own.take (k i), a ∈ cls) ∧ agent.goal.evaluate a = .ok x

/-- The sentence sums up these judgements: under assignments to the variables of all agents, it is
true exactly where an agent has judged that its goal is met, and none that its goal is missed. -/
def SumsUp (agents : List Agent) (classes : List (List (List Assignment))) (k : Nat → Nat)
    (s : Formula) : Prop :=
  ∀ a : Assignment, a.IsOn (Agent.jointVocabulary agents) →
    (s.evaluate a = .ok true ↔
      JudgedWithin agents classes k true a ∧ ¬JudgedWithin agents classes k false a)

theorem exists_mem_take_add {own : List (List Assignment)} {m : Nat} {u : Bool} :
    (∃ cls ∈ own.take (m + u.toNat), a ∈ cls) ↔
      (∃ cls ∈ own.take m, a ∈ cls) ∨ u = true ∧ ∃ cls, own[m]? = some cls ∧ a ∈ cls := by
  cases u with
  | false => simp
  | true =>
    rw [Bool.toNat_true, List.take_add_one]
    simp only [List.mem_append, Option.mem_toList, or_and_right, exists_or, true_and]

/-- Longer prefixes judge what the shorter ones judge, and what was added to them. -/
theorem judgedWithin_add_iff (u : Nat → Bool) :
    JudgedWithin agents classes (fun i => k i + (u i).toNat) x a ↔
      JudgedWithin agents classes k x a ∨
        ∃ (i : Nat) (agent : Agent) (own : List (List Assignment)), agents[i]? = some agent ∧
          classes[i]? = some own ∧ u i = true ∧ (∃ cls, own[k i]? = some cls ∧ a ∈ cls) ∧
          agent.goal.evaluate a = .ok x := by
  simp only [JudgedWithin, exists_mem_take_add, or_and_right, and_or_left, exists_or, and_assoc]

namespace Pursuit

variable {s s' t : Pursuit} {σ τ : Signal} {n : Nat}

/-- The agents have taken in the first `k i` of their classes, and the verdicts are what they have
judged. -/
structure TookIn (s : Pursuit) (agents : List Agent) (classes : List (List (List Assignment)))
    (k : Nat → Nat) : Prop where
  agents_eq : s.agents = agents
  left : ∀ i p, s.prospects[i]? = some p →
    ∃ own, classes[i]? = some own ∧ k i ≤ own.length ∧ p.classes = own.drop (k i)
  given : ∀ x a, a ∈ s.verdicts.given x ↔ JudgedWithin agents classes k x a

/-- Whether the agent of the given number takes in a class in the next round. -/
def unsolvedAt (s : Pursuit) (i : Nat) : Bool := s.prospects[i]?.any fun p => !p.solved

theorem unsolvedAt_eq {i : Nat} {p : Prospect} (h : s.prospects[i]? = some p) :
    s.unsolvedAt i = !p.solved := by
  rw [unsolvedAt, h, Option.any_some]

theorem tookIn_start (h : agents.length = classes.length) :
    (start agents classes).TookIn agents classes fun _ => 0 where
  agents_eq := agents_start h
  left i p hp := by
    obtain ⟨agent, own, -, hown, rfl⟩ := List.getElem?_zipWith_eq_some.mp hp
    exact ⟨own, hown, Nat.zero_le _, List.drop_zero.symm⟩
  given x a := by
    have none : a ∉ (start agents classes).verdicts.given x := by
      cases x <;> exact Std.ExtTreeSet.not_mem_empty
    refine iff_of_false none ?_
    rintro ⟨i, agent, own, -, -, ⟨cls, hcls, -⟩, -⟩
    exact List.not_mem_nil hcls

theorem TookIn.assess (h : s.TookIn agents classes k) : s.assess.TookIn agents classes k where
  agents_eq := agents_assess.trans h.agents_eq
  left i p hp := by
    rw [prospects_assess, List.getElem?_map, Option.map_eq_some_iff] at hp
    obtain ⟨q, hq, rfl⟩ := hp
    exact h.left i q hq
  given := h.given

theorem TookIn.getElem?_agents (h : s.TookIn agents classes k) (i : Nat) :
    agents[i]? = s.prospects[i]?.map Prospect.agent := by
  rw [← h.agents_eq, Pursuit.agents, List.getElem?_map]

/-- What the agents take in next are the classes that follow those taken in. -/
theorem TookIn.takesIn_iff (h : s.TookIn agents classes k) (x : Bool) (a : Assignment) :
    (∃ p ∈ s.prospects, p.TakesIn a ∧ p.agent.goal.evaluate a = .ok x) ↔
      ∃ (i : Nat) (agent : Agent) (own : List (List Assignment)), agents[i]? = some agent ∧
        classes[i]? = some own ∧ s.unsolvedAt i = true ∧
        (∃ cls, own[k i]? = some cls ∧ a ∈ cls) ∧ agent.goal.evaluate a = .ok x := by
  constructor
  · rintro ⟨p, hp, ⟨unsolved, cls, next, ha⟩, value⟩
    obtain ⟨i, hi⟩ := List.mem_iff_getElem?.mp hp
    obtain ⟨own, hown, -, left⟩ := h.left i p hi
    rw [left, List.head?_drop] at next
    refine ⟨i, p.agent, own, ?_, hown, ?_, ⟨cls, next, ha⟩, value⟩
    · rw [h.getElem?_agents, hi, Option.map_some]
    · rw [unsolvedAt_eq hi, unsolved, Bool.not_false]
  · rintro ⟨i, agent, own, hagent, hown, unsolved, ⟨cls, next, ha⟩, value⟩
    rw [h.getElem?_agents, Option.map_eq_some_iff] at hagent
    obtain ⟨p, hi, rfl⟩ := hagent
    obtain ⟨own', hown', -, left⟩ := h.left i p hi
    cases hown.symm.trans hown'
    rw [unsolvedAt_eq hi, Bool.not_eq_true'] at unsolved
    refine ⟨p, List.mem_of_getElem? hi, ⟨unsolved, cls, ?_, ha⟩, value⟩
    rw [left, List.head?_drop]
    exact next

/-- **A round takes in the next class** of every unsolved agent. -/
theorem TookIn.round (h : s.TookIn agents classes k) (hr : s.round = .ok (some s')) :
    s'.TookIn agents classes fun i => k i + (s.unsolvedAt i).toNat where
  agents_eq := (agents_round hr).trans h.agents_eq
  left i p hp := by
    have widens := (widens_of_round hr).1
    rw [widens.map_advance, List.getElem?_map, Option.map_eq_some_iff] at hp
    obtain ⟨q, hq, rfl⟩ := hp
    obtain ⟨own, hown, le, left⟩ := h.left i q hq
    refine ⟨own, hown, ?_⟩
    rw [unsolvedAt_eq hq, Prospect.advance]
    cases solved : q.solved with
    | true => exact ⟨le, left⟩
    | false =>
      -- As the round takes place, the agent has a class left.
      have more := widens.classes_ne_nil q (List.mem_of_getElem? hq) solved
      rw [left, Ne, List.drop_eq_nil_iff, Nat.not_le] at more
      refine ⟨more, ?_⟩
      rw [if_neg Bool.false_ne_true, left, List.tail_drop]
      rfl
  given x a := by
    rw [(widens_of_round hr).1.mem_given, h.given, h.takesIn_iff, judgedWithin_add_iff]

theorem TookIn.le_length (h : s.TookIn agents classes k) (same : agents.length = classes.length)
    {i : Nat} {own : List (List Assignment)} (hown : classes[i]? = some own) :
    k i ≤ own.length := by
  obtain ⟨lt, -⟩ := List.getElem?_eq_some_iff.mp hown
  have hagent : agents[i]? = some agents[i] := List.getElem?_eq_getElem (same.symm ▸ lt)
  rw [h.getElem?_agents, Option.map_eq_some_iff] at hagent
  obtain ⟨p, hp, -⟩ := hagent
  obtain ⟨own', hown', le, -⟩ := h.left i p hp
  cases hown.symm.trans hown'
  exact le

/-- An agent with nothing left has taken in all its classes. -/
theorem TookIn.exists_eq_length (h : s.TookIn agents classes k)
    (stuck : ∃ p ∈ s.prospects, p.solved = false ∧ p.classes = []) :
    ∃ i agent own, agents[i]? = some agent ∧ classes[i]? = some own ∧ s.unsolvedAt i = true ∧
      k i = own.length := by
  obtain ⟨p, hp, unsolved, none⟩ := stuck
  obtain ⟨i, hi⟩ := List.mem_iff_getElem?.mp hp
  obtain ⟨own, hown, le, left⟩ := h.left i p hi
  refine ⟨i, p.agent, own, ?_, hown, ?_, le.antisymm (List.drop_eq_nil_iff.mp (left ▸ none))⟩
  · rw [h.getElem?_agents, hi, Option.map_some]
  · rw [unsolvedAt_eq hi, unsolved, Bool.not_false]

/-- How many classes the agent of each number has taken in after the given number of rounds. -/
def takenIn (s : Pursuit) (σ : Signal) : Nat → Nat → Nat
  | 0, _ => 0
  | n + 1, i => s.takenIn σ n i + ((s.after σ n).any fun c => c.1.unsolvedAt i).toNat

theorem takenIn_add_one (h : s.after σ n = some (t, τ)) (i : Nat) :
    s.takenIn σ (n + 1) i = s.takenIn σ n i + (t.unsolvedAt i).toNat := by
  rw [takenIn, h, Option.any_some]

theorem tookIn_after (same : agents.length = classes.length)
    (h : (start agents classes).after σ n = some (t, τ)) :
    t.TookIn agents classes ((start agents classes).takenIn σ n) := by
  refine after_induction
    (P := fun n t => t.TookIn agents classes ((start agents classes).takenIn σ n))
    (tookIn_start same) (fun n t υ t' before tookIn _ hr => ?_) h
  rw [funext (takenIn_add_one before)]
  exact (tookIn.round hr).assess

/-- After a completed round the announcement is made of the verdicts, and the marks are true. -/
theorem marks_after (h : s.after σ (n + 1) = some (t, τ)) :
    t.announcement = t.verdicts.announcement ∧
      ∀ p ∈ t.prospects, p.solved = p.agent.isSolvedBy t.announcement := by
  obtain ⟨⟨t₀, υ⟩, -, last⟩ := Option.bind_eq_some_iff.mp h
  obtain ⟨-, t', hr, rfl⟩ := exists_round_of_next last
  refine ⟨(widens_of_round hr).2, fun p hp => ?_⟩
  rw [prospects_assess] at hp
  obtain ⟨q, -, rfl⟩ := List.mem_map.mp hp
  rfl

/-- The agents that take part in the next round are all at the start, and later those that the
announcement leaves unsolved. -/
theorem unsolvedAt_after (same : agents.length = classes.length) {i : Nat} {agent : Agent}
    (hagent : agents[i]? = some agent) (h : (start agents classes).after σ n = some (t, τ)) :
    t.unsolvedAt i = true ↔ n = 0 ∨ agent.isSolvedBy t.announcement = false := by
  rw [(tookIn_after same h).getElem?_agents, Option.map_eq_some_iff] at hagent
  obtain ⟨p, hp, rfl⟩ := hagent
  rw [unsolvedAt_eq hp, Bool.not_eq_true']
  cases n with
  | zero =>
    cases h
    exact iff_of_true (mem_start (List.mem_of_getElem? hp)).2.2 (Or.inl rfl)
  | succ n =>
    rw [(marks_after h).2 p (List.mem_of_getElem? hp), or_iff_right (Nat.succ_ne_zero n)]

end Pursuit

/-! ## What announcements say -/

theorem Verdicts.holds_announcement {v : Verdicts} {f : Valuation} :
    v.announcement.holds f = true ↔ (Formula.ofAssignments v.accepted.toList).holds f = true ∧
      ¬(Formula.ofAssignments v.rejected.toList).holds f = true := by
  unfold announcement
  split
  · next none =>
    have nothing : ¬(Formula.ofAssignments v.rejected.toList).holds f = true := by
      rw [Std.ExtTreeSet.isEmpty_iff.mp none, Assignment.holds_ofAssignments]
      rintro ⟨a, ha, -⟩
      exact Std.ExtTreeSet.not_mem_empty (Std.ExtTreeSet.mem_toList.mp ha)
    exact (and_iff_left nothing).symm
  · rw [Formula.holds_and, Formula.holds_not]

/-- Where the verdicts are on assignments on a vocabulary, the announcement is true under the
accepted ones that are not rejected. -/
theorem Verdicts.evaluate_announcement {v : Verdicts} {vs : Vocabulary}
    (h : ∀ x, ∀ a ∈ v.given x, a.IsOn vs) (ha : a.IsOn vs) :
    v.announcement.evaluate a = .ok true ↔ a ∈ v.given true ∧ a ∉ v.given false := by
  have holds (x : Bool) :
      (Formula.ofAssignments (v.given x).toList).holds a.valuation = true ↔ a ∈ v.given x := by
    have on : ∀ b ∈ (v.given x).toList, b.IsOn vs :=
      fun b hb => h x b (Std.ExtTreeSet.mem_toList.mp hb)
    rw [← Std.ExtTreeSet.mem_toList, ← Revision.evaluate_ofAssignments on ha,
      (Revision.isOver_ofAssignments on).evaluate_eq_true_iff ha]
  rw [(v.isFull_announcement h).isOver.evaluate_eq_true_iff ha, holds_announcement]
  exact and_congr (holds true) (holds false).not

theorem SumsUp.entails {s : Formula} (isOver : s.IsOver (Agent.jointVocabulary agents))
    (h : SumsUp agents classes k s) :
    s.entails (Formula.disjunction (agents.map Agent.goal)) = true := by
  refine Formula.entails_iff.mpr fun f hf => ?_
  have value : s.evaluate (f.on (Agent.jointVocabulary agents)) = .ok true := by
    rw [isOver.evaluate_on, hf]
  obtain ⟨⟨i, agent, own, hagent, -, -, met⟩, -⟩ :=
    (h _ (Assignment.isOn_on f (Agent.jointVocabulary agents))).mp value
  have mem : agent ∈ agents := List.mem_of_getElem? hagent
  rw [(Announcement.isOver_goal mem).evaluate_on] at met
  exact Formula.holds_disjunction.mpr
    ⟨agent.goal, List.mem_map_of_mem mem, Except.ok.inj met⟩

namespace Announcement

variable {search : Widening} {σ τ : Signal} {n : Nat} {t : Pursuit}

theorem isOn_of_judgedWithin (h : classesOf agents search = .ok classes)
    (judged : JudgedWithin agents classes k x a) : a.IsOn (Agent.jointVocabulary agents) := by
  obtain ⟨i, agent, own, -, hown, ⟨cls, hcls, ha⟩, -⟩ := judged
  exact isOn_of_mem_models (mem_models_of_classesOf h own (List.mem_of_getElem? hown) cls
    (List.mem_of_mem_take hcls) a ha)

/-- **After a completed round the announcement says** what the agents have judged. -/
theorem sumsUp_after (h : classesOf agents search = .ok classes)
    (ha : (Pursuit.start agents classes).after σ n = some (t, τ)) (pos : 0 < n) :
    SumsUp agents classes ((Pursuit.start agents classes).takenIn σ n) t.announcement ∧
      t.announcement.IsOver (Agent.jointVocabulary agents) := by
  have tookIn := Pursuit.tookIn_after (classesOf_eq_ok h).length_eq ha
  have on : ∀ x, ∀ a ∈ t.verdicts.given x, a.IsOn (Agent.jointVocabulary agents) :=
    fun x a given => isOn_of_judgedWithin h ((tookIn.given x a).mp given)
  obtain ⟨n, rfl⟩ := Nat.exists_eq_succ_of_ne_zero pos.ne'
  rw [(Pursuit.marks_after ha).1]
  refine ⟨fun a onJoint => ?_, (Verdicts.isFull_announcement on).isOver⟩
  rw [Verdicts.evaluate_announcement on onJoint, tookIn.given, tookIn.given]

end Announcement

/-- **Announcements by prefixes.** Under any signal, consider a widening search that has made the
classes of its agents. Whenever some rounds are complete, there are numbers of classes that the
agents have taken in, at most all of them: the announcement is true exactly under the assignments
that meet the goal of an agent which took them in, and miss the goal of none which did. So an
announcement that is found entails that some goal is met. A further round adds one class for each
agent that the announcement has left unsolved, at first for every agent. Nothing is found only if
one of these agents has taken in all its classes. -/
theorem announcement_by_prefixes {agents : List Agent} {search : Widening} {σ σ₀ : Signal}
    {classes : List (List (List Assignment))} (nonempty : agents ≠ [])
    (made : (Announcement.classes agents search).run.run σ = (.ok classes, σ₀)) :
    ∃ k : Nat → Nat → Nat, (∀ i, k 0 i = 0) ∧
      (∀ n s τ, (Pursuit.start agents classes).after σ₀ n = some (s, τ) →
        (∀ i own, classes[i]? = some own → k n i ≤ own.length) ∧
        (0 < n → SumsUp agents classes (k n) s.announcement)) ∧
      (∀ n s τ s' τ', (Pursuit.start agents classes).after σ₀ n = some (s, τ) →
        (Pursuit.start agents classes).after σ₀ (n + 1) = some (s', τ') →
          ∀ i agent, agents[i]? = some agent → k (n + 1) i =
            k n i + if n = 0 ∨ agent.isSolvedBy s.announcement = false then 1 else 0) ∧
      (∀ a, ((Strategy.widening search).search agents).outcome σ = .ok (some a) →
        a.entails (Formula.disjunction (agents.map Agent.goal)) = true ∧
        ∃ n s τ, 0 < n ∧ (Pursuit.start agents classes).after σ₀ n = some (s, τ) ∧
          s.announcement = a) ∧
      (((Strategy.widening search).search agents).outcome σ = .ok none →
        ∃ n s τ, (Pursuit.start agents classes).after σ₀ n = some (s, τ) ∧
          ∃ i agent own, agents[i]? = some agent ∧ classes[i]? = some own ∧
            (n = 0 ∨ agent.isSolvedBy s.announcement = false) ∧ k n i = own.length) := by
  have h : Announcement.classesOf agents search = .ok classes :=
    (Announcement.returns_classes agents search).outcome_eq_ok (congrArg Prod.fst made)
  have same : agents.length = classes.length := (Announcement.classesOf_eq_ok h).length_eq
  have run (found : Option Formula)
      (ends : ((Strategy.widening search).search agents).outcome σ = .ok found) :
      (Pursuit.start agents classes).run.outcome σ₀ = .ok found :=
    (Search.outcome_bind_of_run made).symm.trans ends
  refine ⟨(Pursuit.start agents classes).takenIn σ₀, fun _ => rfl, fun n s τ ha => ⟨?_, ?_⟩, ?_,
    fun a ends => ?_, fun ends => ?_⟩
  · exact fun i own hown => (Pursuit.tookIn_after same ha).le_length same hown
  · exact fun pos => (Announcement.sumsUp_after h ha pos).1
  · intro n s τ s' τ' ha _ i agent hagent
    rw [Pursuit.takenIn_add_one ha, Bool.toNat, Bool.cond_eq_ite]
    simp only [Pursuit.unsolvedAt_after same hagent ha]
  · obtain ⟨n, s, τ, ha, ⟨done, eq⟩ | ⟨-, -, none⟩⟩ := Pursuit.exists_after_of_run (run _ ends)
    · cases eq
      have pos : 0 < n := by
        refine Nat.pos_of_ne_zero fun zero => ?_
        subst zero
        cases ha
        exact Announcement.not_isDone_start nonempty h done
      obtain ⟨sumsUp, isOver⟩ := Announcement.sumsUp_after h ha pos
      exact ⟨sumsUp.entails isOver, n, s, τ, pos, ha, rfl⟩
    · cases none
  · obtain ⟨n, s, τ, ha, ⟨-, eq⟩ | ⟨-, none, -⟩⟩ := Pursuit.exists_after_of_run (run _ ends)
    · cases eq
    · have judgeable := Pursuit.judgeable_after (Announcement.judgeable_start h) ha
      obtain ⟨i, agent, own, hagent, hown, unsolved, all⟩ :=
        (Pursuit.tookIn_after same ha).exists_eq_length
          ((Pursuit.round_eq_none_iff judgeable).mp none)
      exact ⟨n, s, τ, ha, i, agent, own, hagent, hown,
        (Pursuit.unsolvedAt_after same hagent ha).mp unsolved, all⟩

/-- Two agents that believe the same. One has to give it up, the other one may believe anything. In
the first round the one rejects what the other accepts, so the search goes on to a second round. -/
theorem announcement_by_prefixes_two_agents :
    ∃ agents : List Agent, agents = [⟨{.var "p"}, .not (.var "p"), .nearest .hamming⟩,
        ⟨{.var "p"}, .join .or [.var "p", .not (.var "p")], .nearest .hamming⟩] ∧ agents ≠ [] ∧
      ∃ classes σ₀, (Announcement.classes agents .byDistance).run.run {} = (.ok classes, σ₀) ∧
        ∃ k : Nat → Nat → Nat, k 1 0 = 1 ∧ k 1 1 = 1 ∧
          (∃ s τ, (Pursuit.start agents classes).after σ₀ 2 = some (s, τ) ∧
            SumsUp agents classes (k 2) s.announcement) ∧
          (Formula.join .and [.join .or [.not (.var "p"), .var "p"], .not (.var "p")]).entails
            (Formula.disjunction (agents.map Agent.goal)) = true := by
  refine ⟨_, rfl, List.cons_ne_nil _ _, ?_⟩
  generalize hagents : [(⟨{.var "p"}, .not (.var "p"), .nearest .hamming⟩ : Agent),
    ⟨{.var "p"}, .join .or [.var "p", .not (.var "p")], .nearest .hamming⟩] = agents
  have nonempty : agents ≠ [] := hagents ▸ List.cons_ne_nil _ _
  have twice : (((Announcement.classes agents .byDistance).run.run {}).1.toOption.any
      fun classes => ((Pursuit.start agents classes).after
        ((Announcement.classes agents .byDistance).run.run {}).2 2).isSome) = true := by
    subst hagents
    decide +kernel
  have ends : ((Strategy.widening .byDistance).search agents).outcome {} =
      .ok (some (.join .and [.join .or [.not (.var "p"), .var "p"], .not (.var "p")])) := by
    subst hagents
    decide +kernel
  rcases made : (Announcement.classes agents .byDistance).run.run {} with ⟨e | classes, σ₀⟩
  · rw [made] at twice
    cases twice
  · rw [made] at twice
    obtain ⟨⟨s₂, τ₂⟩, second⟩ := Option.isSome_iff_exists.mp twice
    obtain ⟨⟨s₁, τ₁⟩, first, -⟩ := Option.bind_eq_some_iff.mp second
    obtain ⟨k, zero, rounds, grows, found, -⟩ := announcement_by_prefixes nonempty made
    have step (i : Nat) (agent : Agent) (hagent : agents[i]? = some agent) : k 1 i = 1 := by
      rw [grows 0 _ _ s₁ τ₁ rfl first i agent hagent, zero, if_pos (Or.inl rfl)]
    refine ⟨classes, σ₀, rfl, k, ?_, ?_, ⟨s₂, τ₂, second, ?_⟩, (found _ ends).1⟩
    · exact step 0 _ (by rw [← hagents]; rfl)
    · exact step 1 _ (by rw [← hagents]; rfl)
    · exact (rounds 2 s₂ τ₂ second).2 Nat.two_pos

end BeliefRevision
