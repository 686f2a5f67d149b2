import BeliefRevision.Proofs.Projection

/-!
# Complete trust changes nothing

With complete trust a sentence is its own only region. A canonical sentence that can be true is
understood as it stands: its region is kept, what the region leaves uncovered is dropped, and the
disjunction of a single canonical formula is this formula, also if it is a disjunction already
(`understand_complete`). A contradiction is understood as `bot`, as it is by all trust
(`understand_of_contradiction`). That is another sentence, which mentions no variable, but every
revision answers it as it does the contradiction: by consistency nothing is left, by nearness
nothing is possible, and behind trust both are `bot` (`revise_of_contradiction`).

**`revise_trusting_complete`**: so complete trust may be put before any revision, and taken away.
-/

namespace BeliefRevision

/-! ## How sentences are understood -/

namespace Trust

variable {s : Formula}

/-- With complete trust a sentence that can be true is understood as it stands. -/
theorem understand_complete (hs : s.Canonical) (possible : ∃ f, s.holds f = true) :
    complete.understand s = s := by
  have kept : (s.and s).isSatisfiable = true :=
    Formula.isSatisfiable_iff.mpr (possible.imp fun f hf => Formula.holds_and.mpr ⟨hf, hf⟩)
  have dropped : (s.and (uncovered [s])).isSatisfiable = false := by
    rw [← Bool.not_eq_true, Formula.isSatisfiable_iff]
    rintro ⟨f, hf⟩
    obtain ⟨holds, outside⟩ := Formula.holds_and.mp hf
    exact holds_uncovered.mp outside ⟨s, List.mem_singleton.mpr rfl, holds⟩
  rw [understand, restrict, List.filter_append, List.filter_singleton, List.filter_singleton, kept,
    dropped]
  change (Formula.join? .or [s]).getD .bot = s
  rw [Formula.join?_singleton hs, Option.getD_some]

/-- A contradiction is consistent with no region. -/
theorem restrict_of_contradiction {declared : List Formula} (h : ¬∃ f, s.holds f = true) :
    restrict declared s = .bot := by
  have none : (declared ++ [uncovered declared]).filter
      (fun region => (s.and region).isSatisfiable) = [] := by
    refine List.eq_nil_iff_forall_not_mem.mpr fun region hr => ?_
    obtain ⟨-, f, hf, -⟩ := mem_restricted.mp hr
    exact h ⟨f, hf⟩
  rw [restrict, none]
  rfl

theorem understand_of_contradiction (t : Trust) (h : ¬∃ f, s.holds f = true) :
    t.understand s = .bot := by
  cases t with
  | complete => exact restrict_of_contradiction h
  | regions declared _ => exact restrict_of_contradiction h

end Trust

/-! ## Revision by a contradiction -/

namespace Revision

variable {k : Belief} {s : Formula}

theorem consistent_of_contradiction (h : ¬∃ f, s.holds f = true) : consistent k s = ∅ := by
  refine Std.ExtTreeSet.ext_mem fun p => iff_of_false (fun hp => ?_) Std.ExtTreeSet.not_mem_empty
  obtain ⟨-, f, hf, -⟩ := mem_consistent.mp hp
  exact h ⟨f, hf⟩

theorem revise_nearest_of_contradiction (p : Preference) (h : ¬∃ f, s.holds f = true) :
    (nearest p).revise k s = {.bot} := by
  have none : nearestOf p k s = [] := by
    rw [nearestOf_eq_nil_iff, ← Bool.not_eq_true, Formula.isSatisfiable_iff]
    exact h
  rw [revise_nearest]
  change believing (nearestOf p k s) = {.bot}
  rw [none]
  rfl

/-- **All contradictions lead to the same beliefs**, whatever variables they mention. -/
theorem revise_of_contradiction (r : Revision) (h : ¬∃ f, s.holds f = true) :
    r.revise k s = r.revise k .bot := by
  have bot : ¬∃ f, Formula.bot.holds f = true := fun ⟨_, hf⟩ => Bool.false_ne_true hf
  cases r with
  | consistency =>
    exact (consistent_of_contradiction h).trans (consistent_of_contradiction bot).symm
  | nearest p =>
    rw [revise_nearest_of_contradiction p h, revise_nearest_of_contradiction p bot]
  | trusting t inner =>
    change inner.revise k (t.understand s) = inner.revise k (t.understand .bot)
    rw [t.understand_of_contradiction h, t.understand_of_contradiction bot]

end Revision

/-! ## Complete trust -/

/-- The search answers with the value under every signal that nothing raises, and under any other
that is still lowered when the search is over. -/
def Search.Answers {α : Type} (x : Search α) (a : α) : Prop :=
  ∀ s : Signal, s.Quiet ∨ (x.run.run s).2.raised = false → x.outcome s = .ok a

theorem Search.Returns.answers {α : Type} {x : Search α} {a : α} (h : x.Returns (.ok a)) :
    x.Answers a := by
  rintro s (quiet | lowered)
  · exact Watched.Returns.of_quiet h quiet
  · rcases h.value s with value | ⟨-, raised⟩
    · exact value
    · cases lowered.symm.trans raised

/-- **Complete trust changes nothing.** Whatever the revision is, putting complete trust before it
leads to the same beliefs for all sentences, contradictions included. The same goes for attempts,
which both answer with these beliefs while the signal is lowered. -/
theorem revise_trusting_complete (r : Revision) (k : Belief) {s : Formula} (hs : s.Canonical) :
    (Revision.trusting .complete r).revise k s = r.revise k s ∧
    ((Revision.trusting .complete r).attempt k s).Answers (r.revise k s) ∧
    (r.attempt k s).Answers (r.revise k s) := by
  have same : (Revision.trusting .complete r).revise k s = r.revise k s := by
    change r.revise k (Trust.complete.understand s) = r.revise k s
    by_cases possible : ∃ f, s.holds f = true
    · rw [Trust.understand_complete hs possible]
    · rw [Trust.understand_of_contradiction _ possible, r.revise_of_contradiction possible]
  refine ⟨same, ?_, (r.returns_attempt k s).answers⟩
  have attempted := ((Revision.trusting .complete r).returns_attempt k s).answers
  rwa [same] at attempted

/-- A disjunction, behind complete trust and regions, for a revision by layers. -/
theorem revise_trusting_complete_disjunction :
    (Formula.or (.var "p") (.var "q")).Canonical ∧
    (Revision.trusting (.regions [.var "p"] (List.cons_ne_nil _ _))
        (.nearest (.layered [.var "z"]))).revise {.not (.var "p")}
          (Formula.or (.var "p") (.var "q")) = {.not (.var "p")} ∧
    (Revision.trusting .complete (.trusting (.regions [.var "p"] (List.cons_ne_nil _ _))
        (.nearest (.layered [.var "z"])))).revise {.not (.var "p")}
          (Formula.or (.var "p") (.var "q")) = {.not (.var "p")} ∧
    ((Revision.trusting .complete (.trusting (.regions [.var "p"] (List.cons_ne_nil _ _))
        (.nearest (.layered [.var "z"])))).attempt {.not (.var "p")}
          (Formula.or (.var "p") (.var "q"))).outcome {} = .ok {.not (.var "p")} := by
  have canonical : (Formula.or (.var "p") (.var "q")).Canonical :=
    Formula.canonical_or (.var "p") (.var "q")
  have value : (Revision.trusting (.regions [.var "p"] (List.cons_ne_nil _ _))
      (.nearest (.layered [.var "z"]))).revise {.not (.var "p")}
        (Formula.or (.var "p") (.var "q")) = {.not (.var "p")} := by decide +kernel
  obtain ⟨same, attempted, -⟩ := revise_trusting_complete
    (.trusting (.regions [.var "p"] (List.cons_ne_nil _ _)) (.nearest (.layered [.var "z"])))
    {.not (.var "p")} canonical
  rw [value] at same attempted
  exact ⟨canonical, value, same, attempted {} (Or.inr (by decide +kernel))⟩

end BeliefRevision
