import BeliefRevision.Announcement.Agent
import BeliefRevision.Proofs.Closeness

/-!
# What an announcement says about a vocabulary

An announcement may mention variables that nobody has beliefs about. What it says about a vocabulary
is the set of its `possibilities`: the valuations that agree on the vocabulary with one that makes
it true. If the beliefs of an agent, its goal and the regions it trusts in are over the vocabulary,
then this is all that counts for the agent.

* `possibilities_consistent`, `possibilities_nearest`: what a revision by consistency or by
  conflicts leaves possible, in terms of what the sentence does.
* `possibilities_revise`: the same behind trust, by induction on how trust is nested.
* **`Agent.isSolvedBy_congr`**: two sentences that say the same about the vocabulary solve the same
  agents.
-/

namespace BeliefRevision

namespace Formula

variable {p q s : Formula} {vs : Vocabulary} {f g : Valuation}

/-- What a formula says about a vocabulary: the valuations that agree there with one that makes the
formula true. -/
def possibilities (p : Formula) (vs : Vocabulary) : Set Valuation :=
  {f | ∃ g, (∀ v ∈ vs, f v = g v) ∧ p.holds g = true}

theorem mem_possibilities_of_holds (h : p.holds f = true) : f ∈ p.possibilities vs :=
  ⟨f, fun _ _ => rfl, h⟩

theorem IsOver.mem_possibilities (h : p.IsOver vs) :
    f ∈ p.possibilities vs ↔ p.holds f = true := by
  refine ⟨?_, mem_possibilities_of_holds⟩
  rintro ⟨g, agree, hg⟩
  rwa [h.holds_eq agree]

/-- A condition on the vocabulary alone cuts the possibilities as it cuts the valuations. -/
theorem possibilities_of_cut {P : Valuation → Prop}
    (reads : ∀ f g, (∀ v ∈ vs, f v = g v) → (P f ↔ P g))
    (cuts : ∀ f, q.holds f = true ↔ p.holds f = true ∧ P f) :
    q.possibilities vs = {f ∈ p.possibilities vs | P f} := by
  ext f
  constructor
  · rintro ⟨g, agree, hg⟩
    obtain ⟨hp, hP⟩ := (cuts g).mp hg
    exact ⟨⟨g, agree, hp⟩, (reads f g agree).mpr hP⟩
  · rintro ⟨⟨g, agree, hg⟩, hP⟩
    exact ⟨g, agree, (cuts g).mpr ⟨hg, (reads f g agree).mp hP⟩⟩

/-- Joint truth shows in the possibilities if one of the formulas is over the vocabulary. -/
theorem IsOver.exists_holds_iff (h : q.IsOver vs) :
    (∃ f, p.holds f = true ∧ q.holds f = true) ↔ ∃ f ∈ p.possibilities vs, q.holds f = true := by
  constructor
  · rintro ⟨f, hp, hq⟩
    exact ⟨f, mem_possibilities_of_holds hp, hq⟩
  · rintro ⟨f, ⟨g, agree, hg⟩, hf⟩
    exact ⟨g, hg, by rwa [← h.holds_eq agree]⟩

theorem isSatisfiable_iff_possibilities (vs : Vocabulary) :
    p.isSatisfiable = true ↔ (p.possibilities vs).Nonempty := by
  rw [isSatisfiable_iff]
  constructor
  · rintro ⟨f, hf⟩
    exact ⟨f, mem_possibilities_of_holds hf⟩
  · rintro ⟨f, g, -, hg⟩
    exact ⟨g, hg⟩

theorem IsOver.entails_iff (h : q.IsOver vs) :
    p.entails q = true ↔ ∀ f ∈ p.possibilities vs, q.holds f = true := by
  rw [Formula.entails_iff]
  constructor
  · rintro entails f ⟨g, agree, hg⟩
    rw [h.holds_eq agree]
    exact entails g hg
  · exact fun entails f hf => entails f (mem_possibilities_of_holds hf)

/-- Formulas over the vocabulary that say the same about it are equivalent. -/
theorem IsOver.equivalent (hp : p.IsOver vs) (hq : q.IsOver vs)
    (h : p.possibilities vs = q.possibilities vs) : p.Equivalent q := by
  refine equivalent_iff.mpr fun f => Bool.eq_iff_iff.mpr ?_
  rw [← hp.mem_possibilities, h, hq.mem_possibilities]

end Formula

/-! ## Trust -/

namespace Trust

variable {t : Trust} {declared : List Formula} {s s' p : Formula} {vs : Vocabulary} {f : Valuation}

/-- The declared regions are canonical formulas over the vocabulary. -/
def IsOver (t : Trust) (vs : Vocabulary) : Prop :=
  ∀ declared ∈ t.declared?, ∀ region ∈ declared, region.Canonical ∧ region.IsOver vs

/-- The uncovered region is what lies in no declared one. -/
theorem holds_uncovered :
    (uncovered declared).holds f = true ↔ ¬∃ region ∈ declared, region.holds f = true := by
  rw [uncovered, Formula.holds_not, Formula.holds_disjunction]

theorem mem_restricted :
    p ∈ (declared ++ [uncovered declared]).filter (fun region => (s.and region).isSatisfiable) ↔
      p ∈ declared ++ [uncovered declared] ∧ ∃ f, s.holds f = true ∧ p.holds f = true := by
  rw [List.mem_filter, Formula.isSatisfiable_iff]
  simp only [Formula.holds_and]

/-- Among the regions of complete trust a sentence is consistent with itself only, if at all. -/
theorem mem_restricted_self :
    p ∈ ([s] ++ [uncovered [s]]).filter (fun region => (s.and region).isSatisfiable) ↔
      p = s ∧ ∃ f, s.holds f = true := by
  rw [mem_restricted, List.mem_append, List.mem_singleton, List.mem_singleton]
  constructor
  · rintro ⟨rfl | rfl, g, hs, hg⟩
    · exact ⟨rfl, g, hs⟩
    · -- The uncovered region is the contrary of the sentence.
      exact absurd ⟨s, List.mem_singleton.mpr rfl, hs⟩ (holds_uncovered.mp hg)
  · rintro ⟨rfl, g, hs⟩
    exact ⟨Or.inl rfl, g, hs, hs⟩

/-- With complete trust a sentence is understood as it is. -/
theorem holds_understand_complete : (complete.understand s).holds f = s.holds f := by
  rw [Bool.eq_iff_iff, understand, restrict, Formula.holds_disjunction]
  simp only [mem_restricted_self, and_assoc, exists_eq_left]
  exact and_iff_right_of_imp fun hs => ⟨f, hs⟩

theorem mem_occurrences_understand_complete {v : Variable} :
    v ∈ (complete.understand s).occurrences ↔ (∃ f, s.holds f = true) ∧ v ∈ s.occurrences := by
  rw [understand, restrict, Formula.mem_occurrences_disjunction]
  simp only [mem_restricted_self, and_assoc, exists_eq_left]

theorem canonical_understand_complete (hs : s.Canonical) : (complete.understand s).Canonical :=
  Formula.canonical_disjunction fun _ hp => (mem_restricted_self.mp hp).1 ▸ hs

theorem canonical_restrict (h : ∀ region ∈ declared, region.Canonical) (s : Formula) :
    (restrict declared s).Canonical := by
  refine Formula.canonical_disjunction fun p hp => ?_
  rcases List.mem_append.mp (List.mem_filter.mp hp).1 with hp | hp
  · exact h p hp
  · rw [List.mem_singleton.mp hp]
    exact .not (Formula.canonical_disjunction h)

theorem canonical_understand (ht : ∀ declared ∈ t.declared?, ∀ region ∈ declared, region.Canonical)
    (hs : s.Canonical) : (t.understand s).Canonical := by
  cases t with
  | complete => exact canonical_understand_complete hs
  | regions declared _ => exact canonical_restrict (ht declared rfl) s

/-- Regions only see what they can be true together with. -/
theorem restrict_congr (h : ∀ region ∈ declared ++ [uncovered declared],
    (∃ f, s.holds f = true ∧ region.holds f = true) ↔
      ∃ f, s'.holds f = true ∧ region.holds f = true) :
    restrict declared s = restrict declared s' := by
  unfold restrict
  refine congrArg Formula.disjunction (List.filter_congr fun region hr => ?_)
  rw [Bool.eq_iff_iff, Formula.isSatisfiable_iff, Formula.isSatisfiable_iff]
  simp only [Formula.holds_and]
  exact h region hr

/-- Regions over the vocabulary only see what a sentence says about it. -/
theorem restrict_eq_of_possibilities (isOver : ∀ region ∈ declared, region.IsOver vs)
    (h : s.possibilities vs = s'.possibilities vs) :
    restrict declared s = restrict declared s' := by
  refine restrict_congr fun region hr => ?_
  have regionOver : region.IsOver vs := by
    rcases List.mem_append.mp hr with hr | hr
    · exact isOver region hr
    · rw [List.mem_singleton.mp hr]
      intro v hv
      obtain ⟨q, hq, hv⟩ := Formula.mem_occurrences_disjunction.mp hv
      exact isOver q hq v hv
  rw [regionOver.exists_holds_iff, regionOver.exists_holds_iff, h]

theorem possibilities_understand (ht : t.IsOver vs)
    (h : s.possibilities vs = s'.possibilities vs) :
    (t.understand s).possibilities vs = (t.understand s').possibilities vs := by
  cases t with
  | complete =>
    simp only [Formula.possibilities, holds_understand_complete]
    exact h
  | regions declared _ =>
    exact congrArg (Formula.possibilities · vs)
      (restrict_eq_of_possibilities (fun region hr => (ht declared rfl region hr).2) h)

end Trust

/-! ## Revision -/

namespace Revision

variable {r : Revision} {p : Preference} {weight : Variable → Nat} {k : Belief}
  {s s' q : Formula} {vs : Vocabulary} {f : Valuation}

/-- What a revision by consistency keeps: the beliefs, and the sentence, that can be true together
with the sentence. -/
theorem mem_consistent : q ∈ consistent k s ↔
    (s = q ∨ q ∈ k) ∧ ∃ g, s.holds g = true ∧ q.holds g = true := by
  rw [consistent, Std.ExtTreeSet.mem_filter]
  simp only [Std.ExtTreeSet.get_eq, exists_prop, Std.ExtTreeSet.mem_insert,
    Std.LawfulEqOrd.compare_eq_iff_eq, Formula.isSatisfiable_iff, Formula.holds_and, and_comm]

/-- What remains possible after a revision by consistency: the sentence is true, and so is every
belief that can be true together with it. -/
theorem holds_consistent (hs : s.Canonical) :
    (consistent k s).formula.holds f = true ↔ s.holds f = true ∧
      ∀ p ∈ k, (∃ g, s.holds g = true ∧ p.holds g = true) → p.holds f = true := by
  rw [Belief.holds_formula_iff]
  constructor
  · rintro ⟨⟨p, hp, -⟩, all⟩
    obtain ⟨-, g, hg, -⟩ := mem_consistent.mp hp
    exact ⟨all s (mem_consistent.mpr ⟨Or.inl rfl, g, hg, hg⟩),
      fun p hp consistent => all p (mem_consistent.mpr ⟨Or.inr hp, consistent⟩)⟩
  · rintro ⟨holds, kept⟩
    -- The sentence itself is kept, so the conjunction does not vanish, whatever the beliefs are.
    have member : s ∈ consistent k s := mem_consistent.mpr ⟨Or.inl rfl, f, holds, holds⟩
    refine ⟨⟨s, member, hs.parts_ne_nil⟩, fun p hp => ?_⟩
    obtain ⟨rfl | hp, consistent⟩ := mem_consistent.mp hp
    · exact holds
    · exact kept p hp consistent

theorem possibilities_consistent (hk : ∀ p ∈ k, p.IsOver vs) (hs : s.Canonical) :
    (consistent k s).formula.possibilities vs = {f ∈ s.possibilities vs |
      ∀ p ∈ k, (∃ g ∈ s.possibilities vs, p.holds g = true) → p.holds f = true} := by
  refine Formula.possibilities_of_cut (fun f g agree => ?_) fun f => ?_
  · refine forall₂_congr fun p hp => imp_congr_right fun _ => ?_
    rw [(hk p hp).holds_eq agree]
  · rw [holds_consistent hs]
    refine and_congr_right fun _ => forall₂_congr fun p hp => ?_
    rw [(hk p hp).exists_holds_iff]

theorem possibilities_nearest (h : p.Weighs weight k s) (hk : k.formula.IsOver vs) :
    ((nearest p).revise k s).formula.possibilities vs = {f ∈ s.possibilities vs |
      ∀ g ∈ s.possibilities vs, k.formula.distance weight f ≤ k.formula.distance weight g} := by
  have reads {f g : Valuation} (agree : ∀ v ∈ vs, f v = g v) :
      k.formula.distance weight f = k.formula.distance weight g :=
    Formula.distance_congr_right fun v hv => agree v (hk v hv)
  refine Formula.possibilities_of_cut (fun f g agree => ?_) fun f => ?_
  · rw [reads agree]
  · rw [h.holds_revise]
    refine and_congr_right fun _ => ⟨?_, fun closest g hg => ?_⟩
    · rintro closest g ⟨g', agree, hg'⟩
      rw [reads agree]
      exact closest g' hg'
    · exact closest g (Formula.mem_possibilities_of_holds hg)

/-- The revision goes by consistency or by conflicts, or does so behind trust in regions over the
vocabulary, nested to any depth. Where it revises the belief state by the sentence, weights add
up. -/
inductive IsOver (vs : Vocabulary) (k : Belief) : Formula → Revision → Prop where
  | consistency {s : Formula} : IsOver vs k s consistency
  | nearest {s : Formula} {p : Preference} (conflicts : p.ByConflicts k s) :
      IsOver vs k s (nearest p)
  | trusting {s : Formula} {t : Trust} {r : Revision} (regions : t.IsOver vs)
      (inner : IsOver vs k (t.understand s) r) : IsOver vs k s (trusting t r)

/-- **A revision over the vocabulary only sees what a sentence says about it**, as far as the
outcome goes. -/
theorem possibilities_revise (hr : r.IsOver vs k s) (hr' : r.IsOver vs k s')
    (hk : ∀ p ∈ k, p.Canonical ∧ p.IsOver vs) (hs : s.Canonical) (hs' : s'.Canonical)
    (h : s.possibilities vs = s'.possibilities vs) :
    (r.revise k s).formula.possibilities vs = (r.revise k s').formula.possibilities vs := by
  induction hr generalizing s' with
  | consistency =>
    change (consistent k _).formula.possibilities vs = (consistent k _).formula.possibilities vs
    have isOver : ∀ p ∈ k, p.IsOver vs := fun p hp => (hk p hp).2
    rw [possibilities_consistent isOver hs, possibilities_consistent isOver hs', h]
  | nearest conflicts =>
    cases hr' with
    | nearest conflicts' =>
      have isOver : k.formula.IsOver vs := by
        intro v hv
        obtain ⟨p, hp, hv⟩ := Belief.mem_occurrences.mp (Belief.mem_occurrences_of_formula hv)
        exact (hk p hp).2 v hv
      rw [possibilities_nearest conflicts.weighs isOver,
        possibilities_nearest conflicts'.weighs isOver, h]
  | trusting regions _ ih =>
    cases hr' with
    | trusting _ inner' =>
      have canonical {u : Formula} (hu : u.Canonical) : (Trust.understand _ u).Canonical :=
        Trust.canonical_understand (fun d hd r hr => (regions d hd r hr).1) hu
      exact ih inner' (canonical hs) (canonical hs') (Trust.possibilities_understand regions h)

end Revision

/-! ## Agents -/

namespace Agent

variable {agent : Agent} {k k' : Belief} {s s' : Formula} {vs : Vocabulary}

/-- The agent's beliefs, which are canonical, its goal and its way to revise them are over the
vocabulary. -/
structure IsOver (agent : Agent) (vs : Vocabulary) : Prop where
  vocabulary : ∀ v ∈ agent.vocabulary, v ∈ vs
  canonical : ∀ p ∈ agent.initial, p.Canonical
  revision : ∀ s : Formula, s.Canonical → agent.revision.IsOver vs agent.initial s

theorem IsOver.initial (h : agent.IsOver vs) : ∀ p ∈ agent.initial, p.Canonical ∧ p.IsOver vs :=
  fun p hp => ⟨h.canonical p hp, fun v hv => h.vocabulary v (mem_vocabulary_ofList.mpr
    (List.mem_append_left _ (Belief.mem_occurrences.mpr ⟨p, hp, hv⟩)))⟩

theorem IsOver.goal (h : agent.IsOver vs) : agent.goal.IsOver vs :=
  fun v hv => h.vocabulary v (mem_vocabulary_ofList.mpr (List.mem_append_right _ hv))

theorem isReachedBy_congr (hg : agent.goal.IsOver vs)
    (h : k.formula.possibilities vs = k'.formula.possibilities vs) :
    agent.isReachedBy k = agent.isReachedBy k' := by
  have satisfiable : k.formula.isSatisfiable = k'.formula.isSatisfiable := by
    rw [Bool.eq_iff_iff, Formula.isSatisfiable_iff_possibilities vs,
      Formula.isSatisfiable_iff_possibilities vs, h]
  have entails : k.formula.entails agent.goal = k'.formula.entails agent.goal := by
    rw [Bool.eq_iff_iff, hg.entails_iff, hg.entails_iff, h]
  rw [isReachedBy, isReachedBy, Formula.isContradiction, Formula.isContradiction, satisfiable,
    entails]

/-- **An agent over the vocabulary only sees what an announcement says about it.** -/
theorem isSolvedBy_congr (ha : agent.IsOver vs) (hs : s.Canonical) (hs' : s'.Canonical)
    (h : s.possibilities vs = s'.possibilities vs) : agent.isSolvedBy s = agent.isSolvedBy s' :=
  isReachedBy_congr ha.goal
    (Revision.possibilities_revise (ha.revision s hs) (ha.revision s' hs') ha.initial hs hs' h)

end Agent

end BeliefRevision
