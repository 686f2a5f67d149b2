import BeliefRevision.Proofs.Closeness

/-!
# Postulates for revision by conflicts

A revision by conflicts keeps the valuations of least distance from the belief state among those
that make the sentence true (`Weighs.holds_revise`). Distances depend on nothing but the meaning of
the belief state, so the postulates that speak of meanings alone hold in spite of all the
vocabularies in between. Only the sums of weights grow with the vocabularies, and have to add up.

* **`revise_equivalent`**: equivalent beliefs and sentences lead to equivalent beliefs.
* **`revise_and`**: revising by a conjunction is revising by its first part and adding the second,
  unless these contradict each other.
* **`revise_union_unrelated`**: beliefs about something else than the sentence stay as they are.
-/

namespace BeliefRevision

variable {p : Preference}

/-- **Revision by conflicts does not depend on spelling.** If the belief states stand for equivalent
formulas and the sentences are equivalent, then the revised belief states stand for equivalent
formulas, whatever variables are mentioned on either side, as long as weights add up on both. -/
theorem revise_equivalent {k k' : Belief} {s s' : Formula} (hp : p.ByConflicts k s)
    (hp' : p.ByConflicts k' s') (hk : k.formula.Equivalent k'.formula) (hs : s.Equivalent s') :
    ((Revision.nearest p).revise k s).formula.Equivalent
      ((Revision.nearest p).revise k' s').formula := by
  rw [Formula.equivalent_iff] at hk hs ⊢
  intro f
  have distance (g : Valuation) :
      k.formula.distance p.conflictWeight g = k'.formula.distance p.conflictWeight g :=
    Formula.distance_congr hk
  rw [Bool.eq_iff_iff, hp.weighs.holds_revise, hp'.weighs.holds_revise]
  simp only [hs, distance]

/-- Beliefs and sentences that mention another variable each to no effect, one of them with a
weight. -/
theorem revise_equivalent_redundant :
    (Preference.weighted (.ofEntries [("p", 2), ("r", 1)])).ByConflicts
      {.binary .iff (.var "p") (.var "q")} (.not (.var "p")) ∧
    (Preference.weighted (.ofEntries [("p", 2), ("r", 1)])).ByConflicts
      {.binary .iff (.var "p") (.var "q"), .or (.var "r") (.not (.var "r"))}
      (.and (.not (.var "p")) (.or (.var "t") .top)) ∧
    (Belief.formula {.binary .iff (.var "p") (.var "q")}).Equivalent
      (Belief.formula {.binary .iff (.var "p") (.var "q"), .or (.var "r") (.not (.var "r"))}) ∧
    (Formula.not (.var "p")).Equivalent (.and (.not (.var "p")) (.or (.var "t") .top)) ∧
    ((Revision.nearest (.weighted (.ofEntries [("p", 2), ("r", 1)]))).revise
        {.binary .iff (.var "p") (.var "q")} (.not (.var "p"))).formula.Equivalent
      ((Revision.nearest (.weighted (.ofEntries [("p", 2), ("r", 1)]))).revise
        {.binary .iff (.var "p") (.var "q"), .or (.var "r") (.not (.var "r"))}
        (.and (.not (.var "p")) (.or (.var "t") .top))).formula :=
  have weighted : (Preference.weighted (.ofEntries [("p", 2), ("r", 1)])).ByConflicts
      {.binary .iff (.var "p") (.var "q")} (.not (.var "p")) :=
    .weighted (Weights.addUpIn_of_sum_lt (by decide +kernel) _)
  have weighted' : (Preference.weighted (.ofEntries [("p", 2), ("r", 1)])).ByConflicts
      {.binary .iff (.var "p") (.var "q"), .or (.var "r") (.not (.var "r"))}
      (.and (.not (.var "p")) (.or (.var "t") .top)) :=
    .weighted (Weights.addUpIn_of_sum_lt (by decide +kernel) _)
  have beliefs : (Belief.formula {.binary .iff (.var "p") (.var "q")}).Equivalent
      (Belief.formula {.binary .iff (.var "p") (.var "q"), .or (.var "r") (.not (.var "r"))}) :=
    Formula.equivalent_iff_entails.mpr (by decide +kernel)
  have sentences : (Formula.not (.var "p")).Equivalent
      (.and (.not (.var "p")) (.or (.var "t") .top)) :=
    Formula.equivalent_iff_entails.mpr (by decide +kernel)
  ⟨weighted, weighted', beliefs, sentences, revise_equivalent weighted weighted' beliefs sentences⟩

/-- **Revision by conflicts and conjunction.** What is possible after revising by a sentence, and
makes another one true, is possible after revising by their conjunction. If there is anything of
that kind, then nothing else is possible after revising by the conjunction. -/
theorem revise_and {k : Belief} {s : Formula} (hp : p.ByConflicts k s) (t : Formula) :
    (((Revision.nearest p).revise k s).formula.and t).entails
        ((Revision.nearest p).revise k (s.and t)).formula = true ∧
      ((((Revision.nearest p).revise k s).formula.and t).isSatisfiable = true →
        ((Revision.nearest p).revise k (s.and t)).formula.entails
          (((Revision.nearest p).revise k s).formula.and t) = true) := by
  have first := hp.weighs
  have joint := (hp.and t).weighs
  constructor
  · rw [Formula.entails_iff]
    intro f hf
    rw [Formula.holds_and, first.holds_revise] at hf
    obtain ⟨⟨hs, closest⟩, ht⟩ := hf
    rw [joint.holds_revise, Formula.holds_and]
    exact ⟨⟨hs, ht⟩, fun g hg => closest g (Formula.holds_and.mp hg).1⟩
  · rw [Formula.isSatisfiable_iff, Formula.entails_iff]
    rintro ⟨g, hg⟩ f hf
    rw [Formula.holds_and, first.holds_revise] at hg ⊢
    rw [joint.holds_revise, Formula.holds_and] at hf
    obtain ⟨⟨hs, closest⟩, ht⟩ := hg
    obtain ⟨⟨hs', ht'⟩, closest'⟩ := hf
    -- The one found is as close as any, and `f` is no farther as both make the conjunction true.
    have le : k.formula.distance p.conflictWeight f ≤ k.formula.distance p.conflictWeight g :=
      closest' g (Formula.holds_and.mpr ⟨hs, ht⟩)
    exact ⟨⟨hs', fun h hh => le.trans (closest h hh)⟩, ht'⟩

/-- The second sentence mentions a variable of its own. -/
theorem revise_and_new_variable :
    (Preference.weighted (.ofEntries [("p", 2), ("q", 1)])).ByConflicts {.var "p", .var "q"}
      (.binary .nand (.var "p") (.var "q")) ∧
    (((Revision.nearest (.weighted (.ofEntries [("p", 2), ("q", 1)]))).revise
        {.var "p", .var "q"} (.binary .nand (.var "p") (.var "q"))).formula.and
          (.binary .xor (.var "p") (.var "r"))).isSatisfiable = true ∧
    (((Revision.nearest (.weighted (.ofEntries [("p", 2), ("q", 1)]))).revise
        {.var "p", .var "q"} (.binary .nand (.var "p") (.var "q"))).formula.and
          (.binary .xor (.var "p") (.var "r"))).entails
      ((Revision.nearest (.weighted (.ofEntries [("p", 2), ("q", 1)]))).revise
        {.var "p", .var "q"} ((Formula.binary .nand (.var "p") (.var "q")).and
          (.binary .xor (.var "p") (.var "r")))).formula = true ∧
    ((Revision.nearest (.weighted (.ofEntries [("p", 2), ("q", 1)]))).revise
        {.var "p", .var "q"} ((Formula.binary .nand (.var "p") (.var "q")).and
          (.binary .xor (.var "p") (.var "r")))).formula.entails
      (((Revision.nearest (.weighted (.ofEntries [("p", 2), ("q", 1)]))).revise
        {.var "p", .var "q"} (.binary .nand (.var "p") (.var "q"))).formula.and
          (.binary .xor (.var "p") (.var "r"))) = true :=
  have weighted : (Preference.weighted (.ofEntries [("p", 2), ("q", 1)])).ByConflicts
      {.var "p", .var "q"} (.binary .nand (.var "p") (.var "q")) :=
    .weighted (Weights.addUpIn_of_sum_lt (by decide +kernel) _)
  have possible : (((Revision.nearest (.weighted (.ofEntries [("p", 2), ("q", 1)]))).revise
      {.var "p", .var "q"} (.binary .nand (.var "p") (.var "q"))).formula.and
        (.binary .xor (.var "p") (.var "r"))).isSatisfiable = true := by decide +kernel
  ⟨weighted, possible, (revise_and weighted _).1, (revise_and weighted _).2 possible⟩

/-! ## Unrelated beliefs -/

section Unrelated

variable {weight : Variable → Nat} {k l : Belief} {s : Formula} {f : Valuation}

/-- Beliefs about different things add up, where no belief at all is as close to everything. -/
theorem Belief.distance_union (apart : ∀ v ∈ l.occurrences, v ∉ k.occurrences)
    (hk : k = ∅ ∨ ∃ g, k.formula.holds g = true) (hl : ∃ g, l.formula.holds g = true) :
    (k ∪ l).formula.distance weight f =
      k.formula.distance weight f + l.formula.distance weight f := by
  rcases hk with rfl | hk
  · have alone (g : Valuation) : (∅ ∪ l : Belief).formula.holds g = l.formula.holds g := by
      rw [Bool.eq_iff_iff, holds_formula_union hl]
      exact and_iff_right fun p hp => absurd hp Std.ExtTreeSet.not_mem_empty
    have empty : (∅ : Belief).formula.distance weight f = 0 := Formula.distance_bot weight f
    rw [Formula.distance_congr alone, empty, Nat.zero_add]
  · have joint (g : Valuation) :
        (k ∪ l).formula.holds g = (k.formula.and l.formula).holds g := by
      obtain ⟨i, hi⟩ := hk
      rw [Bool.eq_iff_iff, holds_formula_union hl, Formula.holds_and,
        holds_formula_iff (k := k), and_iff_right (holds_formula_iff.mp hi).1]
    rw [Formula.distance_congr joint, Formula.distance_and (fun v hv hv' => ?_) hk hl]
    exact apart v (mem_occurrences_of_formula hv') (mem_occurrences_of_formula hv)

/-- **What remains possible with unrelated beliefs added**, if all their variables have weight. -/
theorem Preference.Weighs.holds_revise_union (joint : p.Weighs weight (k ∪ l) s)
    (alone : p.Weighs weight k s)
    (apart : ∀ v ∈ l.occurrences, v ∉ k.occurrences ∧ v ∉ s.occurrences)
    (weighty : ∀ v ∈ l.occurrences, weight v ≠ 0)
    (hk : k = ∅ ∨ ∃ g, k.formula.holds g = true) (hl : ∃ g, l.formula.holds g = true) :
    ((Revision.nearest p).revise (k ∪ l) s).formula.holds f = true ↔
      ((Revision.nearest p).revise k s).formula.holds f = true ∧ l.formula.holds f = true := by
  have zero (g : Valuation) : l.formula.distance weight g = 0 ↔ l.formula.holds g = true :=
    Formula.distance_eq_zero_iff_holds hl fun v hv =>
      weighty v (Belief.mem_occurrences_of_formula hv)
  rw [joint.holds_revise, alone.holds_revise, and_assoc]
  simp only [Belief.distance_union (fun v hv => (apart v hv).1) hk hl, ← zero]
  refine and_congr_right fun hs => ⟨fun closest => ?_, fun ⟨closest, kept⟩ g hg => ?_⟩
  · -- The unrelated beliefs can be made true without touching the rest.
    have le (g : Valuation) (hg : s.holds g = true) :
        k.formula.distance weight f + l.formula.distance weight f ≤
          k.formula.distance weight g := by
      obtain ⟨i, hi⟩ := hl
      have same : k.formula.distance weight (l.formula.graft i g) = k.formula.distance weight g :=
        Formula.distance_congr_right fun v hv => Formula.graft_eq_right fun hv' =>
          (apart v (Belief.mem_occurrences_of_formula hv')).1
            (Belief.mem_occurrences_of_formula hv)
      have kept : l.formula.distance weight (l.formula.graft i g) = 0 :=
        (zero _).mpr (Formula.holds_graft.trans hi)
      have sentence : s.holds (l.formula.graft i g) = true :=
        (Formula.holds_graft_of_apart fun v hv =>
          (apart v (Belief.mem_occurrences_of_formula hv)).2).trans hg
      calc
        k.formula.distance weight f + l.formula.distance weight f ≤
            k.formula.distance weight (l.formula.graft i g) +
              l.formula.distance weight (l.formula.graft i g) := closest _ sentence
        _ = k.formula.distance weight g := by rw [same, kept, Nat.add_zero]
    refine ⟨fun g hg => (Nat.le_add_right _ _).trans (le g hg), ?_⟩
    have own := le f hs
    omega
  · rw [kept]
    exact (closest g hg).trans (Nat.le_add_right _ _)

end Unrelated

/-- **An announcement leaves unrelated beliefs untouched.** Take beliefs that can be true together
and mention no variable of the sentence, nor of the other beliefs; these too can be true together,
or there are none. Revising all of them by the sentence then comes to the same as revising the
others and adding the unrelated ones. -/
theorem revise_union_unrelated {k l : Belief} {s : Formula}
    (apart : ∀ v ∈ l.occurrences, v ∉ k.occurrences ∧ v ∉ s.occurrences)
    (hk : k = ∅ ∨ k.formula.isSatisfiable = true) (hl : l.formula.isSatisfiable = true) :
    ((Revision.nearest .hamming).revise (k ∪ l) s).formula.Equivalent
      (((Revision.nearest .hamming).revise k s).formula.and l.formula) := by
  rw [Formula.isSatisfiable_iff] at hk hl
  rw [Formula.equivalent_iff]
  intro f
  rw [Bool.eq_iff_iff, Formula.holds_and]
  exact Preference.weighs_hamming.holds_revise_union Preference.weighs_hamming apart
    (fun _ _ => Nat.one_ne_zero) hk hl

/-- A conflict about one variable, with beliefs about two others. -/
theorem revise_union_unrelated_two_beliefs :
    (∀ v ∈ Belief.occurrences {.binary .xor (.var "q") (.var "r"), .or (.var "q") (.var "r")},
      v ∉ Belief.occurrences {.var "p"} ∧ v ∉ (Formula.not (.var "p")).occurrences) ∧
    (Belief.formula {.var "p"}).isSatisfiable = true ∧
    (Belief.formula {.binary .xor (.var "q") (.var "r"),
      .or (.var "q") (.var "r")}).isSatisfiable = true ∧
    ((Revision.nearest .hamming).revise
        ({.var "p"} ∪ {.binary .xor (.var "q") (.var "r"), .or (.var "q") (.var "r")})
        (.not (.var "p"))).formula.Equivalent
      (((Revision.nearest .hamming).revise {.var "p"} (.not (.var "p"))).formula.and
        (Belief.formula {.binary .xor (.var "q") (.var "r"), .or (.var "q") (.var "r")})) :=
  have apart : ∀ v ∈ Belief.occurrences {.binary .xor (.var "q") (.var "r"),
      .or (.var "q") (.var "r")},
        v ∉ Belief.occurrences {.var "p"} ∧ v ∉ (Formula.not (.var "p")).occurrences := by
    decide +kernel
  have some : (Belief.formula {.var "p"}).isSatisfiable = true := by decide +kernel
  have others : (Belief.formula {.binary .xor (.var "q") (.var "r"),
      .or (.var "q") (.var "r")}).isSatisfiable = true := by decide +kernel
  ⟨apart, some, others, revise_union_unrelated apart (Or.inr some) others⟩

end BeliefRevision
