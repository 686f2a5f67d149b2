import BeliefRevision.Proofs.CompleteTrust
import BeliefRevision.Proofs.Synonyms

/-!
# What understanding by regions keeps

A sentence is understood as the regions of trust that it touches (`holds_restrict`). The declared
regions may overlap, be empty or leave a part uncovered, which is one region more, so every
valuation lies in some region (`exists_region`). Understanding is therefore an abstraction: it keeps
what a sentence rules out by whole regions, and forgets the rest (`Abstracts`).

* **`ofRegions_abstracts`**: understanding by regions is an abstraction. If the regions are separate,
  then understanding what is understood changes nothing, as no region touches another
  (`Separate.eq_of_holds`).
-/

namespace BeliefRevision.Trust

variable {declared : List Formula} {s s' region other : Formula} {f : Valuation}

/-! ## Regions -/

/-- **What is understood** is true in the regions that the sentence touches. -/
theorem holds_restrict : (restrict declared s).holds f = true ↔
    ∃ region ∈ declared ++ [uncovered declared],
      (∃ g, s.holds g = true ∧ region.holds g = true) ∧ region.holds f = true := by
  rw [restrict, Formula.holds_disjunction]
  simp only [mem_restricted, and_assoc]

/-- **The regions cover everything.** -/
theorem exists_region (declared : List Formula) (f : Valuation) :
    ∃ region ∈ declared ++ [uncovered declared], region.holds f = true := by
  by_cases covered : ∃ region ∈ declared, region.holds f = true
  · obtain ⟨region, mem, holds⟩ := covered
    exact ⟨region, List.mem_append_left _ mem, holds⟩
  · exact ⟨uncovered declared, List.mem_append_right _ (List.mem_singleton.mpr rfl),
      holds_uncovered.mpr covered⟩

/-- No two of the listed regions can be true together. -/
def Separate (declared : List Formula) : Prop :=
  declared.Pairwise fun p q => (p.and q).isSatisfiable = false

instance (declared : List Formula) : Decidable (Separate declared) :=
  inferInstanceAs (Decidable (declared.Pairwise fun p q => (p.and q).isSatisfiable = false))

/-- If the declared regions are separate, then each valuation lies in one region only. -/
theorem Separate.eq_of_holds (separate : Separate declared)
    (hr : region ∈ declared ++ [uncovered declared]) (ho : other ∈ declared ++ [uncovered declared])
    (holds : region.holds f = true ∧ other.holds f = true) : region = other := by
  have apart : (declared ++ [uncovered declared]).Pairwise
      fun p q => ∀ f, ¬(p.holds f = true ∧ q.holds f = true) := by
    refine List.pairwise_append.mpr ⟨separate.imp fun {p q} disjoint f both => ?_,
      List.pairwise_singleton _ _, fun p hp q hq f both => ?_⟩
    · rw [← Bool.not_eq_true, Formula.isSatisfiable_iff] at disjoint
      exact disjoint ⟨f, Formula.holds_and.mpr both⟩
    · rw [List.mem_singleton.mp hq, holds_uncovered] at both
      exact both.2 ⟨p, hp, both.1⟩
  have symm : Std.Symm fun p q : Formula => ∀ f, ¬(p.holds f = true ∧ q.holds f = true) :=
    ⟨fun _ _ disjoint f both => disjoint f both.symm⟩
  by_contra differ
  exact apart.forall hr ho differ f holds

/-! ## What is kept -/

/-- A sentence that is true is understood as something true. -/
theorem holds_restrict_of_holds (declared : List Formula) (h : s.holds f = true) :
    (restrict declared s).holds f = true := by
  obtain ⟨region, mem, holds⟩ := exists_region declared f
  exact holds_restrict.mpr ⟨region, mem, ⟨f, h, holds⟩, holds⟩

/-- Nothing is understood exactly if nothing was said that can be true. -/
theorem restrict_eq_bot_iff : restrict declared s = .bot ↔ s.isSatisfiable = false := by
  rw [← Bool.not_eq_true, Formula.isSatisfiable_iff]
  constructor
  · rintro nothing ⟨f, hf⟩
    have holds := holds_restrict_of_holds declared hf
    rw [nothing] at holds
    exact Bool.false_ne_true holds
  · exact restrict_of_contradiction

/-- A disjunction touches the regions that one of its sides touches. -/
theorem holds_restrict_or : (restrict declared (s.or s')).holds f = true ↔
    (restrict declared s).holds f = true ∨ (restrict declared s').holds f = true := by
  simp only [holds_restrict, Formula.holds_or, or_and_right, exists_or, and_or_left]

/-- **A sentence made of separate regions** touches these and no other. -/
theorem restrict_restrict (separate : Separate declared) (s : Formula) :
    restrict declared (restrict declared s) = restrict declared s := by
  refine restrict_congr fun region hr => ⟨?_, ?_⟩
  · rintro ⟨f, understood, holds⟩
    obtain ⟨other, ho, touched, holds'⟩ := holds_restrict.mp understood
    rw [separate.eq_of_holds hr ho ⟨holds, holds'⟩]
    exact touched
  · rintro ⟨f, hf, holds⟩
    exact ⟨f, holds_restrict_of_holds declared hf, holds⟩

/-- Understanding a sentence as something that it entails, with no regard to how it is put. -/
structure Abstracts (understand : Formula → Formula) : Prop where
  /-- What is said entails what is understood. -/
  entails : ∀ s : Formula, s.entails (understand s) = true
  /-- Of a sentence that says more, more is understood. -/
  monotone : ∀ s s' : Formula, s.entails s' = true → (understand s).entails (understand s') = true
  /-- Equivalent sentences are understood alike, down to the way in which it is put. -/
  congr : ∀ s s' : Formula, s.Equivalent s' → understand s = understand s'
  /-- A disjunction is understood side by side. -/
  or : ∀ s s' : Formula, (understand (s.or s')).Equivalent ((understand s).or (understand s'))
  /-- Contradictions, and nothing else, are understood as `bot`. -/
  eq_bot_iff : ∀ s : Formula, understand s = .bot ↔ s.isSatisfiable = false

theorem abstracts_restrict (declared : List Formula) : Abstracts (restrict declared) where
  entails s := Formula.entails_iff.mpr fun _ => holds_restrict_of_holds declared
  monotone s s' h := by
    refine Formula.entails_iff.mpr fun f hf => ?_
    obtain ⟨region, mem, ⟨g, hg, touched⟩, holds⟩ := holds_restrict.mp hf
    exact holds_restrict.mpr ⟨region, mem, ⟨g, Formula.entails_iff.mp h g hg, touched⟩, holds⟩
  congr s s' h := restrict_eq_of_holds_eq (Formula.equivalent_iff.mp h)
  or s s' := by
    refine Formula.equivalent_iff.mpr fun f => Bool.eq_iff_iff.mpr ?_
    rw [holds_restrict_or, Formula.holds_or]
  eq_bot_iff s := restrict_eq_bot_iff

/-- **Understanding by regions is an abstraction**, whatever the regions are, as long as one is
declared. If they are separate, then what is understood is understood as it stands. -/
theorem ofRegions_abstracts {declared : List Formula} (some : declared ≠ []) :
    ∃ t, ofRegions declared = .ok t ∧ t.declared? = .some declared ∧ Abstracts t.understand ∧
      (Separate declared → ∀ s, t.understand (t.understand s) = t.understand s) :=
  ⟨.regions declared some, dif_neg some, rfl, abstracts_restrict declared, restrict_restrict⟩

/-- Two separate regions, of which the second is a disjunction and gets spliced. -/
theorem ofRegions_abstracts_spliced :
    Separate [(Formula.var "p").and (.var "q"), (Formula.not (.var "p")).or (.not (.var "q"))] ∧
    (Formula.var "q").not.entails ((Formula.var "p").and (.var "q")).not = true ∧
    ∃ t, ofRegions [(Formula.var "p").and (.var "q"),
          (Formula.not (.var "p")).or (.not (.var "q"))] = .ok t ∧
      (t.understand (Formula.var "q").not).entails
        (t.understand ((Formula.var "p").and (.var "q")).not) = true ∧
      t.understand (Formula.var "q") =
        .join .or [(Formula.var "p").and (.var "q"), .not (.var "p"), .not (.var "q")] ∧
      t.understand (t.understand (.var "q")) = t.understand (.var "q") := by
  have separate : Separate [(Formula.var "p").and (.var "q"),
      (Formula.not (.var "p")).or (.not (.var "q"))] := by decide +kernel
  have entails : (Formula.var "q").not.entails ((Formula.var "p").and (.var "q")).not = true := by
    decide +kernel
  obtain ⟨t, ht, -, abstracts, again⟩ := ofRegions_abstracts (List.cons_ne_nil _ _)
  refine ⟨separate, entails, t, ht, abstracts.monotone _ _ entails, ?_, again separate _⟩
  cases ht
  decide +kernel

end BeliefRevision.Trust
