import BeliefRevision.Proofs.Closeness

/-!
# Announcements that fit the beliefs

An announcement that can be true together with all that is believed is simply added to it: what
remains possible makes both true. For this, distance zero has to mean that the beliefs are true.
Then some of what makes the sentence true is at distance zero, and the closest is what else is
(`forall_le_iff_eq_zero`).

* By conflicts this is so if all variables of the beliefs have weight
  (`Weighs.holds_revise_of_fits`), and weights add up: two large weights can add up to nothing
  (`revise_of_fits_fails_on_overflow`).
* By layers it is so because the assignments that are compared give values to all variables of the
  beliefs, which make up the first layer (`holds_revise_layered_of_fits`). The other layers may
  mention any variables.

**`revise_of_fits`** puts these together.
-/

namespace BeliefRevision

/-! ## The first layer -/

/-- The first layer is the one that the assignment is consistent with, if it is so at all. -/
theorem Assignment.FirstConsistent.eq_zero_iff {a : Assignment} {p : Formula} {ps : List Formula}
    {n : Nat} (h : a.FirstConsistent (p :: ps) n) : n = 0 ↔ a.IsConsistentWith p := by
  obtain ⟨⟨q, hq, consistent⟩, first⟩ := h
  constructor
  · rintro rfl
    cases hq
    exact consistent
  · intro hp
    by_contra later
    exact first 0 (Nat.pos_of_ne_zero later) p rfl hp

/-- An assignment to all variables of a formula is consistent with it if it makes it true. -/
theorem Formula.IsOver.isConsistentWith_on_iff {p : Formula} {vs : Vocabulary} {f : Valuation}
    (h : p.IsOver vs) : (f.on vs).IsConsistentWith p ↔ p.holds f = true := by
  constructor
  · rintro ⟨g, completes, hg⟩
    rwa [h.holds_eq (Assignment.completesTo_on_iff.mp completes)]
  · exact fun hf => ⟨f, Assignment.completesTo_on f vs, hf⟩

theorem Formula.equivalent_and_iff {p q r : Formula} :
    p.Equivalent (q.and r) ↔ ∀ f, p.holds f = true ↔ q.holds f = true ∧ r.holds f = true := by
  rw [equivalent_iff]
  refine forall_congr' fun f => ?_
  rw [Bool.eq_iff_iff, holds_and]

/-! ## What is closest if something is at distance zero -/

/-- If the beliefs are true just where a number is zero, and fit the sentence, then the number is
least, among what makes the sentence true, where the beliefs are true. -/
theorem forall_le_iff_eq_zero {number : Valuation → Nat} {p s : Formula} {f : Valuation}
    (zero : ∀ g, number g = 0 ↔ p.holds g = true)
    (fits : ∃ g, p.holds g = true ∧ s.holds g = true) :
    (∀ g, s.holds g = true → number f ≤ number g) ↔ p.holds f = true := by
  constructor
  · intro least
    obtain ⟨g, hp, hs⟩ := fits
    have le : number f ≤ number g := least g hs
    rw [(zero g).mpr hp, Nat.le_zero] at le
    exact (zero f).mp le
  · intro hp g _
    rw [(zero f).mpr hp]
    exact Nat.zero_le _

namespace Preference

variable {p : Preference} {weight : Variable → Nat} {k : Belief} {s : Formula} {f : Valuation}

/-- **By conflicts** the beliefs stay possible, if all their variables have weight. -/
theorem Weighs.holds_revise_of_fits (h : p.Weighs weight k s)
    (weighty : ∀ v ∈ k.formula.occurrences, weight v ≠ 0)
    (fits : ∃ g, k.formula.holds g = true ∧ s.holds g = true) :
    ((Revision.nearest p).revise k s).formula.holds f = true ↔
      k.formula.holds f = true ∧ s.holds f = true := by
  have possible : ∃ g, k.formula.holds g = true := fits.imp fun _ => And.left
  have zero (g : Valuation) : k.formula.distance weight g = 0 ↔ k.formula.holds g = true :=
    Formula.distance_eq_zero_iff_holds possible weighty
  rw [h.holds_revise, forall_le_iff_eq_zero zero fits, and_comm]

/-- **By layers** the beliefs stay possible, whatever the other layers are. -/
theorem holds_revise_layered_of_fits (layers : List Formula)
    (fits : ∃ g, k.formula.holds g = true ∧ s.holds g = true) :
    ((Revision.nearest (layered layers)).revise k s).formula.holds f = true ↔
      k.formula.holds f = true ∧ s.holds f = true := by
  obtain ⟨d, compares, first⟩ := measures_layered (k := k) layers
  have zero (g : Valuation) : d (g.on (Revision.scope k s)) = 0 ↔ k.formula.holds g = true :=
    (first _).eq_zero_iff.trans (Revision.isOver_scope_left k s).isConsistentWith_on_iff
  rw [holds_revise_of_compare compares, forall_le_iff_eq_zero zero fits, and_comm]

end Preference

/-- **An announcement that fits the beliefs is added to them.** If the sentence can be true together
with the beliefs, then revising by it leads to beliefs that are equivalent to the former ones and
the sentence: by Hamming distance, by any layers, and by weighted distance if every variable of the
beliefs has a positive weight and the weights add up. -/
theorem revise_of_fits {k : Belief} {s : Formula}
    (fits : (k.formula.and s).isSatisfiable = true) :
    ((Revision.nearest .hamming).revise k s).formula.Equivalent (k.formula.and s) ∧
    (∀ layers : List Formula,
      ((Revision.nearest (.layered layers)).revise k s).formula.Equivalent (k.formula.and s)) ∧
    ∀ w : Weights, (∀ v ∈ k.occurrences, 0 < w.weightOf v) → w.AddUpIn k s →
      ((Revision.nearest (.weighted w)).revise k s).formula.Equivalent (k.formula.and s) := by
  rw [Formula.isSatisfiable_iff] at fits
  simp only [Formula.holds_and] at fits
  simp only [Formula.equivalent_and_iff]
  refine ⟨fun f => ?_, fun layers f => ?_, fun w positive addUp f => ?_⟩
  · exact Preference.weighs_hamming.holds_revise_of_fits (fun _ _ => Nat.one_ne_zero) fits
  · exact Preference.holds_revise_layered_of_fits layers fits
  · refine (Preference.weighs_weighted addUp).holds_revise_of_fits (fun v hv => ?_) fits
    exact Nat.ne_of_gt (UInt64.lt_iff_toNat_lt.mp
      (positive v (Belief.mem_occurrences_of_formula hv)))

/-- Beliefs about two variables and a sentence about a third one, with a layer that mentions a
fourth. -/
theorem revise_of_fits_new_variable :
    ((Belief.formula {.or (.var "p") (.var "q"), .not (.var "q")}).and
      (.binary .iff (.var "p") (.var "r"))).isSatisfiable = true ∧
    (∀ v ∈ Belief.occurrences {.or (.var "p") (.var "q"), .not (.var "q")},
      0 < (Weights.ofEntries [("p", 2), ("q", 1)]).weightOf v) ∧
    (Weights.ofEntries [("p", 2), ("q", 1)]).AddUpIn
      {.or (.var "p") (.var "q"), .not (.var "q")} (.binary .iff (.var "p") (.var "r")) ∧
    ((Revision.nearest .hamming).revise {.or (.var "p") (.var "q"), .not (.var "q")}
        (.binary .iff (.var "p") (.var "r"))).formula.Equivalent
      ((Belief.formula {.or (.var "p") (.var "q"), .not (.var "q")}).and
        (.binary .iff (.var "p") (.var "r"))) ∧
    ((Revision.nearest (.layered [.and (.var "q") (.var "z")])).revise
        {.or (.var "p") (.var "q"), .not (.var "q")}
        (.binary .iff (.var "p") (.var "r"))).formula.Equivalent
      ((Belief.formula {.or (.var "p") (.var "q"), .not (.var "q")}).and
        (.binary .iff (.var "p") (.var "r"))) ∧
    ((Revision.nearest (.weighted (.ofEntries [("p", 2), ("q", 1)]))).revise
        {.or (.var "p") (.var "q"), .not (.var "q")}
        (.binary .iff (.var "p") (.var "r"))).formula.Equivalent
      ((Belief.formula {.or (.var "p") (.var "q"), .not (.var "q")}).and
        (.binary .iff (.var "p") (.var "r"))) :=
  have fits : ((Belief.formula {.or (.var "p") (.var "q"), .not (.var "q")}).and
      (.binary .iff (.var "p") (.var "r"))).isSatisfiable = true := by decide +kernel
  have positive : ∀ v ∈ Belief.occurrences {.or (.var "p") (.var "q"), .not (.var "q")},
      0 < (Weights.ofEntries [("p", 2), ("q", 1)]).weightOf v := by decide +kernel
  have addUp : (Weights.ofEntries [("p", 2), ("q", 1)]).AddUpIn
      {.or (.var "p") (.var "q"), .not (.var "q")} (.binary .iff (.var "p") (.var "r")) :=
    Weights.addUpIn_of_sum_lt (by decide +kernel) _
  ⟨fits, positive, addUp, (revise_of_fits fits).1, (revise_of_fits fits).2.1 _,
    (revise_of_fits fits).2.2 _ positive addUp⟩

/-- **Beliefs can be lost to weights that do not add up**: with half of what a word can hold on both
variables, giving up both beliefs seems to cost nothing. -/
theorem revise_of_fits_fails_on_overflow :
    ((Belief.formula {.var "p", .var "q"}).and
      (.or (.var "p") (.not (.var "q")))).isSatisfiable = true ∧
    (∀ v ∈ Belief.occurrences {.var "p", .var "q"}, 0 < (Weights.ofEntries
      [("p", 9223372036854775808), ("q", 9223372036854775808)]).weightOf v) ∧
    ¬((Revision.nearest (.weighted (.ofEntries
        [("p", 9223372036854775808), ("q", 9223372036854775808)]))).revise
      {.var "p", .var "q"} (.or (.var "p") (.not (.var "q")))).formula.Equivalent
        ((Belief.formula {.var "p", .var "q"}).and (.or (.var "p") (.not (.var "q")))) := by
  refine ⟨by decide +kernel, by decide +kernel, ?_⟩
  rw [Formula.equivalent_iff_entails]
  decide +kernel

end BeliefRevision
