import BeliefRevision.Proofs.Expansion
import BeliefRevision.Proofs.Projection

/-!
# Repeating an announcement

A second announcement of the same sentence is judged from other beliefs than the first one: those
that the first one led to. It changes nothing all the same.

* By consistency (`consistent_consistent`): what was kept is consistent with the sentence.
* By conflicts (`Weighs.holds_revise_again`): what is now at distance zero differs from what is
  possible in variables without weight only, and was as close before. Weights have to add up both
  times, as the second sums run over the variables of the sentence too.
* By layers (`holds_revise_again_layered`): the sentence fits what it led to, and adds nothing.

**`revise_again`** says so of all these revisions, and behind trust, where the sentence is
understood in the same way both times.
-/

namespace BeliefRevision

/-! ## By consistency -/

theorem Revision.consistent_consistent (k : Belief) (s : Formula) :
    consistent (consistent k s) s = consistent k s := by
  refine Std.ExtTreeSet.ext_mem fun p => ?_
  rw [mem_consistent, mem_consistent]
  tauto

/-! ## By nearness -/

namespace Preference

variable {p : Preference} {weight : Variable → Nat} {k : Belief} {s : Formula} {f : Valuation}

theorem Weighs.holds_revise_again (first : p.Weighs weight k s)
    (again : p.Weighs weight ((Revision.nearest p).revise k s) s) :
    ((Revision.nearest p).revise ((Revision.nearest p).revise k s) s).formula.holds f = true ↔
      ((Revision.nearest p).revise k s).formula.holds f = true := by
  have preorder := first.transCmp
  rw [again.holds_revise]
  constructor
  · rintro ⟨hs, closest⟩
    have possible : ∃ g, ((Revision.nearest p).revise k s).formula.holds g = true :=
      Revision.exists_holds_revise_nearest ⟨f, hs⟩
    have least : ((Revision.nearest p).revise k s).formula.distance weight f = 0 := by
      obtain ⟨i, hi⟩ := possible
      have le := closest i (first.holds_revise.mp hi).1
      rwa [Formula.distance_eq_zero_of_holds weight hi, Nat.le_zero] at le
    -- Variables without weight may differ here, but they did not count the first time either.
    obtain ⟨g, hg, agree⟩ := (Formula.distance_eq_zero_iff possible).mp least
    rw [first.holds_revise] at hg ⊢
    rw [Formula.distance_congr_of_weight agree]
    exact ⟨hs, hg.2⟩
  · intro hf
    refine ⟨(first.holds_revise.mp hf).1, fun g _ => ?_⟩
    rw [Formula.distance_eq_zero_of_holds weight hf]
    exact Nat.zero_le _

theorem holds_revise_again_layered (layers : List Formula) :
    ((Revision.nearest (layered layers)).revise
        ((Revision.nearest (layered layers)).revise k s) s).formula.holds f = true ↔
      ((Revision.nearest (layered layers)).revise k s).formula.holds f = true := by
  have preorder (k : Belief) : Std.TransCmp ((layered layers).comparison k) :=
    transCmp_distance _ _ k
  have holds_of_holds_revise {k : Belief} {g : Valuation} :
      ((Revision.nearest (layered layers)).revise k s).formula.holds g = true →
        s.holds g = true :=
    fun h => (Revision.holds_revise_nearest.mp h).1
  by_cases possible : ∃ g, s.holds g = true
  · obtain ⟨g, hg⟩ := Revision.exists_holds_revise_nearest (p := layered layers) (k := k) possible
    rw [holds_revise_layered_of_fits layers ⟨g, hg, holds_of_holds_revise hg⟩]
    exact and_iff_left_of_imp holds_of_holds_revise
  · exact iff_of_false (fun h => possible ⟨f, holds_of_holds_revise h⟩)
      fun h => possible ⟨f, holds_of_holds_revise h⟩

end Preference

/-! ## All revisions -/

/-- The revision goes by consistency, by conflicts or by layers, or does so behind trust, nested to
any depth. Where it revises the belief state by the sentence, and then again, weights add up. -/
inductive Revision.Standard (k : Belief) : Formula → Revision → Prop where
  | consistency {s : Formula} : Standard k s consistency
  | conflicts {s : Formula} {p : Preference} (first : p.ByConflicts k s)
      (again : p.ByConflicts ((nearest p).revise k s) s) : Standard k s (nearest p)
  | layered {s : Formula} (layers : List Formula) : Standard k s (nearest (.layered layers))
  | trusting {s : Formula} (t : Trust) {r : Revision} (inner : Standard k (t.understand s) r) :
      Standard k s (trusting t r)

/-- **Repeating an announcement changes nothing.** Beliefs that were revised by a sentence stand for
an equivalent formula after being revised by it again, and if the revision goes by consistency they
are the same beliefs. -/
theorem revise_again :
    (∀ (r : Revision) (k : Belief) (s : Formula), r.Standard k s →
      (r.revise (r.revise k s) s).formula.Equivalent (r.revise k s).formula) ∧
    (∀ (k : Belief) (s : Formula),
      Revision.consistency.revise (Revision.consistency.revise k s) s =
        Revision.consistency.revise k s) ∧
    Belief.formula ∅ = .bot := by
  refine ⟨fun r k s hr => ?_, Revision.consistent_consistent, rfl⟩
  rw [Formula.equivalent_iff]
  intro f
  induction hr with
  | @consistency s =>
    change (Revision.consistent (Revision.consistent k s) s).formula.holds f = _
    rw [Revision.consistent_consistent]
    rfl
  | conflicts first again =>
    exact Bool.eq_iff_iff.mpr (first.weighs.holds_revise_again again.weighs)
  | layered layers => exact Bool.eq_iff_iff.mpr (Preference.holds_revise_again_layered layers)
  | trusting t _ ih => exact ih

/-- Weights for a belief and for a variable that only the sentence mentions, behind trust twice. -/
theorem revise_again_nested :
    (Revision.trusting (.regions [.binary .xor (.var "p") (.var "q")] (List.cons_ne_nil _ _))
      (.trusting .complete (.nearest (.weighted (.ofEntries [("p", 2), ("q", 1)]))))).Standard
        {.var "p"} (.binary .xor (.var "p") (.var "q")) ∧
    (Revision.trusting (.regions [.binary .xor (.var "p") (.var "q")] (List.cons_ne_nil _ _))
        (.trusting .complete (.nearest (.weighted (.ofEntries [("p", 2), ("q", 1)]))))).revise
          {.var "p"} (.binary .xor (.var "p") (.var "q")) =
      {.join .and [.var "p", .not (.var "q")]} ∧
    ((Revision.trusting (.regions [.binary .xor (.var "p") (.var "q")] (List.cons_ne_nil _ _))
        (.trusting .complete (.nearest (.weighted (.ofEntries [("p", 2), ("q", 1)]))))).revise
          {.join .and [.var "p", .not (.var "q")]}
            (.binary .xor (.var "p") (.var "q"))).formula.Equivalent
      (Belief.formula {.join .and [.var "p", .not (.var "q")]}) := by
  have standard : (Revision.trusting
      (.regions [.binary .xor (.var "p") (.var "q")] (List.cons_ne_nil _ _))
        (.trusting .complete (.nearest (.weighted (.ofEntries [("p", 2), ("q", 1)]))))).Standard
          {.var "p"} (.binary .xor (.var "p") (.var "q")) :=
    .trusting _ (.trusting _ (.conflicts
      (.weighted (Weights.addUpIn_of_sum_lt (by decide +kernel) _))
      (.weighted (Weights.addUpIn_of_sum_lt (by decide +kernel) _))))
  have first : (Revision.trusting
      (.regions [.binary .xor (.var "p") (.var "q")] (List.cons_ne_nil _ _))
        (.trusting .complete (.nearest (.weighted (.ofEntries [("p", 2), ("q", 1)]))))).revise
          {.var "p"} (.binary .xor (.var "p") (.var "q")) =
      {.join .and [.var "p", .not (.var "q")]} := by decide +kernel
  have again := revise_again.1 _ _ _ standard
  rw [first] at again
  exact ⟨standard, first, again⟩

end BeliefRevision
