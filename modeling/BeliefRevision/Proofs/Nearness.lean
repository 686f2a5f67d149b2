import Mathlib.Data.List.Induction
import BeliefRevision.Proofs.Canonical
import BeliefRevision.Proofs.Distance
import BeliefRevision.Proofs.Outcome

/-!
# Revision by nearness keeps exactly the nearest models

The candidates of a revision by nearness are the assignments to all variables involved that satisfy
the sentence (`mem_models_completed`). Those that are kept are the minimal ones under the comparison
that the preference makes (`Comparison.nearest_eq_filter`), and the formula written from them has no
other models among the assignments to these variables (`evaluate_ofAssignments`).

* **`revise_nearest_exact`**: all of this for every preference that is a total preorder, and what
  the preferences by distance compare.
-/

namespace BeliefRevision

/-! ## The nearest of a list -/

namespace Comparison

variable {cmp : Comparison} {as : List Assignment} {a b : Assignment}

theorem keepNearest_ne_nil (kept : List Assignment) (a : Assignment) :
    cmp.keepNearest kept a ≠ [] := by
  unfold keepNearest
  cases kept with
  | nil => exact List.cons_ne_nil _ _
  | cons best ties =>
    dsimp only
    cases cmp a best <;> exact List.cons_ne_nil _ _

theorem nearest_append (as : List Assignment) (a : Assignment) :
    cmp.nearest (as ++ [a]) = cmp.keepNearest (cmp.nearest as) a := by
  rw [nearest, List.foldl_append]
  rfl

theorem nearest_eq_nil_iff : cmp.nearest as = [] ↔ as = [] := by
  induction as using List.reverseRecOn with
  | nil => exact iff_of_true rfl rfl
  | append_singleton as a _ =>
    rw [nearest_append]
    exact iff_of_false (keepNearest_ne_nil _ a) (by simp)

/-- No assignment of the list is closer. -/
def Minimal (cmp : Comparison) (as : List Assignment) (a : Assignment) : Prop :=
  ∀ b ∈ as, cmp b a ≠ .lt

instance : DecidablePred (cmp.Minimal as) := fun a =>
  inferInstanceAs (Decidable (∀ b ∈ as, cmp b a ≠ .lt))

theorem minimal_append : cmp.Minimal (as ++ [a]) b ↔ cmp.Minimal as b ∧ cmp a b ≠ .lt := by
  unfold Minimal
  rw [List.forall_mem_append, List.forall_mem_singleton]

variable [Std.TransCmp cmp]

/-- An assignment that is not closer than a member changes nothing for the members. -/
theorem filter_minimal_append (hbest : b ∈ as) (le : (cmp b a).isLE = true) :
    (as.filter fun x => cmp.Minimal (as ++ [a]) x) = as.filter fun x => cmp.Minimal as x := by
  refine List.filter_congr fun x _ => decide_eq_decide.mpr (minimal_append.trans ?_)
  refine and_iff_left_of_imp fun minimal lt => ?_
  exact minimal b hbest (Std.TransCmp.lt_of_isLE_of_lt le lt)

/-- **What is kept of a list are its minimal members**, in their order. The first one kept decides
for all, as the comparison is a total preorder. -/
theorem nearest_eq_filter (as : List Assignment) :
    cmp.nearest as = as.filter fun a => cmp.Minimal as a := by
  induction as using List.reverseRecOn with
  | nil => rfl
  | append_singleton as a ih =>
    have self : cmp a a ≠ .lt := ne_lt_iff.mpr Std.ReflCmp.isLE_rfl
    rw [nearest_append, List.filter_append, List.filter_singleton, Bool.cond_decide]
    rcases hkept : cmp.nearest as with _ | ⟨best, ties⟩
    · rw [nearest_eq_nil_iff.mp hkept]
      have alone : cmp.Minimal ([] ++ [a]) a := List.forall_mem_singleton.mpr self
      rw [if_pos alone]
      rfl
    · obtain ⟨mem, minimal⟩ : best ∈ as ∧ cmp.Minimal as best := by
        have kept : best ∈ cmp.nearest as := hkept ▸ List.mem_cons_self
        simpa [ih] using kept
      simp only [minimal_append (b := a), and_iff_left self]
      -- The first one kept is as close as any member, so it tells where `a` stands among them all.
      cases h : cmp a best with
      | lt =>
        have closer : ∀ b ∈ as, cmp a b = .lt := fun b hb =>
          Std.TransCmp.lt_of_lt_of_isLE h (ne_lt_iff.mp (minimal b hb))
        have others : (as.filter fun x => cmp.Minimal (as ++ [a]) x) = [] :=
          List.filter_eq_nil_iff.mpr fun b hb hmin =>
            (minimal_append.mp (of_decide_eq_true hmin)).2 (closer b hb)
        have first : cmp.Minimal as a := fun b hb => Std.OrientedCmp.not_lt_of_lt (closer b hb)
        rw [others, if_pos first, keepNearest, h]
        rfl
      | eq =>
        have same : cmp best a = .eq := Std.OrientedCmp.eq_comm.mp h
        have ties' : cmp.Minimal as a := fun b hb lt =>
          minimal b hb (Std.TransCmp.lt_of_lt_of_eq lt h)
        rw [filter_minimal_append mem (by rw [same]; rfl), ← ih, hkept, if_pos ties', keepNearest,
          h]
      | gt =>
        have closer : cmp best a = .lt := Std.OrientedCmp.lt_of_gt h
        rw [filter_minimal_append mem (by rw [closer]; rfl), ← ih, hkept,
          if_neg fun first => first best mem closer, List.append_nil, keepNearest, h]

theorem mem_nearest : a ∈ cmp.nearest as ↔ a ∈ as ∧ ∀ b ∈ as, cmp b a ≠ .lt := by
  rw [nearest_eq_filter, List.mem_filter, decide_eq_true_iff]
  rfl

end Comparison

/-! ## The sentence over all variables involved -/

namespace Revision

variable {k : Belief} {s : Formula} {f : Valuation} {v : Variable} {x : Assignment}

/-- The variables of a belief state and of a sentence. -/
def scope (k : Belief) (s : Formula) : Vocabulary := .ofList (k.occurrences ++ s.occurrences)

theorem holds_completed : (completed k s).holds f = s.holds f := by
  rw [Bool.eq_iff_iff, completed, Formula.holds_and, Formula.holds_closure, and_iff_left rfl]

theorem mem_vocabulary_completed : v ∈ (completed k s).vocabulary ↔ v ∈ scope k s := by
  rw [Formula.mem_vocabulary, completed, Formula.mem_occurrences_and,
    Formula.mem_occurrences_closure, scope, mem_vocabulary_ofList, List.mem_append, List.mem_append,
    Std.ExtTreeSet.mem_toList, Formula.mem_vocabulary]
  tauto

theorem isOver_scope (k : Belief) (s : Formula) : s.IsOver (scope k s) := fun _ hv =>
  mem_vocabulary_ofList.mpr (List.mem_append_right _ hv)

theorem isOver_scope_left (k : Belief) (s : Formula) : k.formula.IsOver (scope k s) := fun _ hv =>
  mem_vocabulary_ofList.mpr (List.mem_append_left _ (Belief.mem_occurrences_of_formula hv))

/-- The candidates for what remains possible are the assignments that satisfy the sentence. -/
theorem mem_models_completed :
    x ∈ (completed k s).models ↔ x.IsOn (scope k s) ∧ s.evaluate x = .ok true := by
  have on : x.IsOn (completed k s).vocabulary ↔ x.IsOn (scope k s) :=
    forall_congr' fun v => by rw [mem_vocabulary_completed]
  rw [Formula.mem_models, Formula.IsModel, on]
  refine and_congr_right fun hx => ?_
  rw [(completed k s).isOver_vocabulary.evaluate_eq (on.mpr hx) x.completesTo_valuation,
    holds_completed, (isOver_scope k s).evaluate_eq hx x.completesTo_valuation]

/-- The candidates are the valuations that make the sentence true, cut down to the variables. -/
theorem mem_models_completed_iff_exists_on :
    x ∈ (completed k s).models ↔ ∃ f, s.holds f = true ∧ f.on (scope k s) = x := by
  rw [mem_models_completed, (isOver_scope k s).evaluate_iff_exists_on]

/-! ## What remains possible -/

variable {as : List Assignment} {vs : Vocabulary}

theorem isOver_ofAssignments (has : ∀ a ∈ as, a.IsOn vs) :
    (Formula.ofAssignments as).IsOver vs := by
  intro v hv
  obtain ⟨a, ha, hv⟩ := Assignment.mem_occurrences_ofAssignments.mp hv
  exact (has a ha v).mp hv

/-- Among the assignments on a vocabulary, those that satisfy a disjunction of such assignments are
the ones listed. -/
theorem evaluate_ofAssignments (has : ∀ a ∈ as, a.IsOn vs) (hx : x.IsOn vs) :
    (Formula.ofAssignments as).evaluate x = .ok true ↔ x ∈ as := by
  rw [(isOver_ofAssignments has).evaluate_eq_true_iff hx, Assignment.holds_ofAssignments]
  constructor
  · rintro ⟨a, ha, completes⟩
    have same : a = x := (Assignment.eq_on_of_completesTo (has a ha) completes).trans
      (Assignment.eq_on_of_completesTo hx x.completesTo_valuation).symm
    exact same ▸ ha
  · intro h
    exact ⟨x, h, x.completesTo_valuation⟩

theorem isOn_and_evaluate_ofAssignments (has : ∀ a ∈ as, a.IsOn vs) :
    x.IsOn vs ∧ (Formula.ofAssignments as).evaluate x = .ok true ↔ x ∈ as :=
  ⟨fun h => (evaluate_ofAssignments has h.1).mp h.2,
    fun hx => ⟨has x hx, (evaluate_ofAssignments has (has x hx)).mpr hx⟩⟩

/-- The nearest assignments to a belief state that satisfy a sentence. -/
def nearestOf (p : Preference) (k : Belief) (s : Formula) : List Assignment :=
  (p.comparison k).nearest (completed k s).models

variable {p : Preference}

/-- The revised belief state stands for the nearest assignments. -/
theorem formula_revise_nearest :
    ((nearest p).revise k s).formula = .ofAssignments (nearestOf p k s) := by
  rw [revise_nearest]
  exact Belief.formula_singleton (Assignment.canonical_ofAssignments _)

theorem mem_nearestOf [Std.TransCmp (p.comparison k)] : x ∈ nearestOf p k s ↔
    (x.IsOn (scope k s) ∧ s.evaluate x = .ok true) ∧
      ∀ y : Assignment, y.IsOn (scope k s) → s.evaluate y = .ok true →
        p.comparison k y x ≠ .lt := by
  rw [nearestOf, Comparison.mem_nearest, mem_models_completed]
  refine and_congr_right fun _ => forall_congr' fun y => ?_
  rw [mem_models_completed, and_imp]

theorem nearestOf_eq_nil_iff : nearestOf p k s = [] ↔ s.isSatisfiable = false := by
  have candidates : (completed k s).models = [] ↔ ¬(completed k s).isSatisfiable = true := by
    rw [Formula.isSatisfiable_iff_models, not_not]
  rw [nearestOf, Comparison.nearest_eq_nil_iff, candidates, Formula.isSatisfiable_iff,
    ← Bool.not_eq_true, Formula.isSatisfiable_iff]
  simp only [holds_completed]

theorem isSatisfiable_ofAssignments :
    (Formula.ofAssignments as).isSatisfiable = true ↔ as ≠ [] := by
  rw [Formula.isSatisfiable_iff]
  constructor
  · rintro ⟨f, hf⟩
    obtain ⟨a, ha, -⟩ := Assignment.holds_ofAssignments.mp hf
    exact List.ne_nil_of_mem ha
  · intro nonempty
    obtain ⟨a, ha⟩ := List.exists_mem_of_ne_nil as nonempty
    exact ⟨a.valuation, Assignment.holds_ofAssignments.mpr ⟨a, ha, a.completesTo_valuation⟩⟩

theorem entails_of_nearestOf [Std.TransCmp (p.comparison k)] :
    (Formula.ofAssignments (nearestOf p k s)).entails s = true := by
  rw [Formula.entails_iff]
  intro f hf
  obtain ⟨a, ha, completes⟩ := Assignment.holds_ofAssignments.mp hf
  obtain ⟨⟨on, satisfies⟩, -⟩ := mem_nearestOf.mp ha
  have value := (isOver_scope k s).evaluate_eq on completes
  exact Except.ok.inj (value.symm.trans satisfies)

end Revision

/-! ## Preferences by distance -/

namespace Preference

variable {p : Preference} {k : Belief}

/-- The preference compares assignments by a number that fits the description. -/
def Measures (p : Preference) (k : Belief) (describes : Assignment → Nat → Prop) : Prop :=
  ∃ d : Assignment → Nat, (∀ a b, p.comparison k a b = compare (d a) (d b)) ∧
    ∀ a, describes a (d a)

theorem transCmp_distance (metric : Metric) (alarm : Alarm) (k : Belief) :
    Std.TransCmp (comparison ⟨.distance metric, alarm⟩ k) :=
  inferInstanceAs (Std.TransCmp (compareOn (metric.distance k k.formula.models)))

theorem Measures.imp {describes describes' : Assignment → Nat → Prop}
    (h : p.Measures k describes) (imp : ∀ a n, describes a n → describes' a n) :
    p.Measures k describes' :=
  let ⟨d, compares, fits⟩ := h
  ⟨d, compares, fun a => imp a _ (fits a)⟩

theorem measures_nearest (count : Assignment → Assignment → Nat) (alarm : Alarm) :
    Measures ⟨.distance ⟨fun _ ms a => Metric.nearest (fun m => count m a) ms⟩, alarm⟩ k
      fun a => k.formula.LeastOver fun m => count m a :=
  ⟨_, fun _ _ => rfl, fun _ => Metric.leastOver_nearest k.formula _⟩

theorem measures_hamming :
    hamming.Measures k fun a => k.formula.LeastOver fun m => (m.conflicts a).card :=
  (measures_nearest Assignment.hamming .never).imp fun a _ least =>
    least.congr fun m _ => m.hamming_eq_card a

/-- Weighted distances are the least total weights of assignments whose conflicts add up. -/
theorem measures_weighted (w : Weights) :
    (weighted w).Measures k fun a n => (∀ m, k.formula.IsModel m → w.AddUp m a) →
      k.formula.LeastOver (fun m => ∑ v ∈ m.conflicts a, (w.weightOf v).toNat) n :=
  (measures_nearest (Assignment.weighted w) .never).imp fun _ _ least addUp =>
    least.congr fun m hm => Assignment.weighted_eq_sum (addUp m hm)

theorem measures_layered (layers : List Formula) :
    (layered layers).Measures k fun a => a.FirstConsistent (k.formula :: layers ++ [.top]) :=
  ⟨(Metric.layered layers).distance k k.formula.models, fun _ _ => rfl,
    Metric.firstConsistent_layered layers k _⟩

theorem unwatched_compare (p : Preference) (k : Belief) (a b : Assignment) :
    (Signal.unwatched ((p.comparator k).compare a b)).1 = p.comparison k a b := by
  obtain ⟨c, answer, -⟩ := Comparator.gives_compare (Comparator.judges_comparison p k) a b
  rw [answer.unwatched_eq]

end Preference

/-! ## Revision -/

/-- **Revision by nearness keeps exactly the nearest models.** If the preference compares
assignments by a total preorder, the revised belief state has one member. Among the assignments to
all variables involved, that member is satisfied by those that satisfy the sentence and have none
closer among those that do; so it entails the sentence, is satisfiable if the sentence is, and is
`bot` if not. Comparators answer by the comparison of their preference, which for a metric is always
a total preorder: by the least number or weight of conflicts with a model of the belief state, or by
the first layer that an assignment is consistent with. The weights have to add up. -/
theorem revise_nearest_exact :
    (∀ (p : Preference) (k : Belief) (s : Formula), Std.TransCmp (p.comparison k) →
      ∃ d : Formula, (Revision.nearest p).revise k s = {d} ∧
        (∀ x : Assignment, x.IsOn (Revision.scope k s) →
          (d.evaluate x = .ok true ↔ s.evaluate x = .ok true ∧
            ∀ y : Assignment, y.IsOn (Revision.scope k s) → s.evaluate y = .ok true →
              p.comparison k y x ≠ .lt)) ∧
        d.entails s = true ∧ d.isSatisfiable = s.isSatisfiable ∧
        (s.isSatisfiable = false → d = .bot)) ∧
    (∀ (p : Preference) (k : Belief) (a b : Assignment),
      (Signal.unwatched ((p.comparator k).compare a b)).1 = p.comparison k a b) ∧
    (∀ (metric : Metric) (alarm : Alarm) (k : Belief),
      Std.TransCmp (Preference.comparison ⟨.distance metric, alarm⟩ k)) ∧
    (∀ k : Belief,
      (Preference.hamming.Measures k fun a =>
        k.formula.LeastOver fun m => (m.conflicts a).card) ∧
      (∀ w : Weights, (Preference.weighted w).Measures k fun a n =>
        (∀ m, k.formula.IsModel m → w.AddUp m a) →
          k.formula.LeastOver (fun m => ∑ v ∈ m.conflicts a, (w.weightOf v).toNat) n) ∧
      ∀ layers : List Formula, (Preference.layered layers).Measures k fun a =>
        a.FirstConsistent (k.formula :: layers ++ [.top])) ∧
    Belief.formula ∅ = .bot := by
  refine ⟨fun p k s trans => ?_, Preference.unwatched_compare, Preference.transCmp_distance,
    fun k => ⟨Preference.measures_hamming, Preference.measures_weighted,
      Preference.measures_layered⟩, rfl⟩
  refine ⟨.ofAssignments (Revision.nearestOf p k s), Revision.revise_nearest, fun x hx => ?_,
    Revision.entails_of_nearestOf, ?_, fun unsatisfiable => ?_⟩
  · have on : ∀ a ∈ Revision.nearestOf p k s, a.IsOn (Revision.scope k s) := fun a ha =>
      (Revision.mem_nearestOf.mp ha).1.1
    rw [Revision.evaluate_ofAssignments on hx, Revision.mem_nearestOf, and_assoc, and_iff_right hx]
  · rw [Bool.eq_iff_iff, Revision.isSatisfiable_ofAssignments, Ne, Revision.nearestOf_eq_nil_iff,
      Bool.not_eq_false]
  · rw [Revision.nearestOf_eq_nil_iff.mpr unsatisfiable]
    rfl

/-- A preference that is no distance, by which two assignments remain possible whatever is believed,
and a distance by weights that add up. -/
theorem revise_nearest_exact_fewestTrue :
    Std.TransCmp (Preference.fewestTrue.comparison {.var "p"}) ∧
    (Revision.nearest .fewestTrue).revise {.var "p"} (.join .or [.var "p", .var "q"]) =
      {.join .or [.join .and [.var "p", .not (.var "q")], .join .and [.not (.var "p"), .var "q"]]} ∧
    (∃ d : Formula,
      (Revision.nearest .fewestTrue).revise {.var "p"} (.join .or [.var "p", .var "q"]) = {d} ∧
      (∀ x : Assignment, x.IsOn (Revision.scope {.var "p"} (.join .or [.var "p", .var "q"])) →
        (d.evaluate x = .ok true ↔
          (Formula.join .or [.var "p", .var "q"]).evaluate x = .ok true ∧
            ∀ y : Assignment, y.IsOn (Revision.scope {.var "p"} (.join .or [.var "p", .var "q"])) →
              (Formula.join .or [.var "p", .var "q"]).evaluate y = .ok true →
                Preference.fewestTrue.comparison {.var "p"} y x ≠ .lt)) ∧
      d.entails (.join .or [.var "p", .var "q"]) = true ∧
      d.isSatisfiable = (Formula.join .or [.var "p", .var "q"]).isSatisfiable ∧
      ((Formula.join .or [.var "p", .var "q"]).isSatisfiable = false → d = .bot)) ∧
    (∀ m, (Belief.formula {.or (.var "p") (.var "q")}).IsModel m →
      (Weights.ofEntries [("p", 3), ("q", 2)]).AddUp m (.ofEntries [("p", false), ("q", false)])) ∧
    ∃ d : Assignment → Nat,
      (∀ a b, (Preference.weighted (.ofEntries [("p", 3), ("q", 2)])).comparison
        {.or (.var "p") (.var "q")} a b = compare (d a) (d b)) ∧
      (Belief.formula {.or (.var "p") (.var "q")}).LeastOver
        (fun m => ∑ v ∈ m.conflicts (.ofEntries [("p", false), ("q", false)]),
          ((Weights.ofEntries [("p", 3), ("q", 2)]).weightOf v).toNat)
        (d (.ofEntries [("p", false), ("q", false)])) := by
  have preorder : Std.TransCmp (Preference.fewestTrue.comparison {.var "p"}) :=
    inferInstanceAs (Std.TransCmp (compareOn fun a : Assignment =>
      (a.toList.filter Prod.snd).length))
  have addUp : ∀ m ∈ (Belief.formula {.or (.var "p") (.var "q")}).models,
      (Weights.ofEntries [("p", 3), ("q", 2)]).AddUp m
        (.ofEntries [("p", false), ("q", false)]) := by decide +kernel
  simp only [Formula.mem_models] at addUp
  obtain ⟨exact, -, -, distances, -⟩ := revise_nearest_exact
  obtain ⟨d, compares, least⟩ := (distances {.or (.var "p") (.var "q")}).2.1
    (.ofEntries [("p", 3), ("q", 2)])
  exact ⟨preorder, by decide +kernel, exact _ _ _ preorder, addUp, d, compares, least _ addUp⟩

/-- **Weights that do not add up tie what is far with what is near.** If both variables of a belief
have half of what a word can hold, then giving up both of them seems to cost nothing. -/
theorem weighted_ties_on_overflow :
    (Revision.nearest (.weighted (.ofEntries
        [("p", 9223372036854775808), ("q", 9223372036854775808)]))).revise
      {.join .and [.var "p", .var "q"]} (.binary .iff (.var "p") (.var "q")) =
      {.join .or [.join .and [.var "p", .var "q"],
        .join .and [.not (.var "p"), .not (.var "q")]]} ∧
    ¬(Preference.weighted (.ofEntries
        [("p", 9223372036854775808), ("q", 9223372036854775808)])).Measures
      {.join .and [.var "p", .var "q"]} fun a =>
        (Belief.formula {.join .and [.var "p", .var "q"]}).LeastOver fun m =>
          ∑ v ∈ m.conflicts a, ((Weights.ofEntries
            [("p", 9223372036854775808), ("q", 9223372036854775808)]).weightOf v).toNat := by
  refine ⟨by decide +kernel, fun ⟨d, compares, least⟩ => ?_⟩
  have tie := compares (.ofEntries [("p", true), ("q", true)])
    (.ofEntries [("p", false), ("q", false)])
  rw [(least _).eq_nearest, (least _).eq_nearest] at tie
  exact absurd tie (by decide +kernel)

end BeliefRevision
