import Mathlib.Algebra.Order.BigOperators.Group.Finset
import Mathlib.Order.Lattice.Nat
import BeliefRevision.Proofs.Nearness

/-!
# Closeness without assignments

A revision by nearness compares assignments to the variables of belief state and sentence with
models of the belief state, which are assignments to the variables of the latter alone. None of
these vocabularies matters. Two valuations may be compared on any variables, as long as those of the
belief state are among them (`distance_eq_of_subset`): a model can be completed so that it differs
nowhere else. The distance of a valuation thus depends on the meaning of the belief state only
(`distance_congr`), and a revision keeps the valuations of least distance among those that make the
sentence true. Formulas about different things add up their distances (`distance_and`), and at
distance zero a formula is true but for variables that weigh nothing (`distance_eq_zero_iff`).

These distances are exact, while a preference adds weights up in words. It goes by the exact ones
where no sum that a revision asks for is too large (`Weights.AddUpIn`). For this, too, nothing but
meanings and the variables of the belief state matter (`Weights.addUpIn_iff`).

* `Revision.holds_revise_nearest`: what remains possible, for any total preorder.
* **`Preference.Weighs.holds_revise`**: what remains possible, for a preference by conflicts.
-/

namespace BeliefRevision

/-! ## Costs -/

namespace Valuation

variable {weight : Variable → Nat} {vs us : Finset Variable} {f f' g g' : Valuation}

/-- The total weight of those of the given variables on which two valuations differ. -/
def cost (weight : Variable → Nat) (vs : Finset Variable) (f g : Valuation) : Nat :=
  ∑ v ∈ vs with f v ≠ g v, weight v

theorem cost_congr (hf : ∀ v ∈ vs, f v = f' v) (hg : ∀ v ∈ vs, g v = g' v) :
    cost weight vs f g = cost weight vs f' g' := by
  have same : vs.filter (fun v => f v ≠ g v) = vs.filter fun v => f' v ≠ g' v :=
    Finset.filter_congr fun v hv => by rw [hf v hv, hg v hv]
  rw [cost, cost, same]

theorem cost_le_of_subset (h : us ⊆ vs) : cost weight us f g ≤ cost weight vs f g :=
  Finset.sum_le_sum_of_subset (Finset.filter_subset_filter _ h)

theorem cost_union (h : Disjoint us vs) :
    cost weight (us ∪ vs) f g = cost weight us f g + cost weight vs f g := by
  rw [cost, Finset.filter_union, Finset.sum_union (Finset.disjoint_filter_filter h)]
  rfl

theorem cost_eq_zero_iff :
    cost weight vs f g = 0 ↔ ∀ v ∈ vs, weight v ≠ 0 → f v = g v := by
  rw [cost, Finset.sum_eq_zero_iff]
  simp only [Finset.mem_filter, and_imp]
  exact forall₂_congr fun v _ => not_imp_comm

/-- Variables without weight cost nothing. -/
theorem cost_congr_of_weight (h : ∀ v, weight v ≠ 0 → f v = f' v) :
    cost weight vs f g = cost weight vs f' g := by
  rw [cost, cost, Finset.sum_filter, Finset.sum_filter]
  refine Finset.sum_congr rfl fun v _ => ?_
  by_cases weightless : weight v = 0
  · rw [weightless, ite_self, ite_self]
  · rw [h v weightless]

/-- Variables on which the valuations agree cost nothing. -/
theorem cost_eq_of_agree (h : us ⊆ vs) (agree : ∀ v ∈ vs, v ∉ us → f v = g v) :
    cost weight us f g = cost weight vs f g := by
  have same : us.filter (fun v => f v ≠ g v) = vs.filter fun v => f v ≠ g v := by
    refine Finset.Subset.antisymm (Finset.filter_subset_filter _ h) fun v hv => ?_
    obtain ⟨hv, ne⟩ := Finset.mem_filter.mp hv
    refine Finset.mem_filter.mpr ⟨?_, ne⟩
    by_contra other
    exact ne (agree v hv other)
  rw [cost, cost, same]

/-- Cut down to vocabularies, valuations conflict where they differ on variables of both. -/
theorem conflicts_on {us vs : Vocabulary} {ws : Finset Variable}
    (h : ∀ v, v ∈ ws ↔ v ∈ us ∧ v ∈ vs) :
    (g.on us).conflicts (f.on vs) = ws.filter fun v => f v ≠ g v := by
  ext v
  rw [Assignment.conflicts, Finset.mem_filter, List.mem_toFinset, Assignment.mem_domain,
    Assignment.isOn_on g us v, Assignment.isOn_on f vs v, Finset.mem_filter, h, and_assoc]
  refine and_congr_right fun hu => and_congr_right fun hv => ?_
  rw [Assignment.getElem?_on, Assignment.getElem?_on, if_pos hu, if_pos hv]
  exact not_congr (Option.some_inj.trans eq_comm)

end Valuation

/-! ## Distances -/

namespace Formula

variable {weight : Variable → Nat} {p q : Formula} {f g : Valuation} {vs : Finset Variable}

/-- The costs of the valuations that make a formula true. -/
def costs (weight : Variable → Nat) (p : Formula) (vs : Finset Variable) (f : Valuation) :
    Set Nat :=
  Valuation.cost weight vs f '' {g | p.holds g = true}

/-- The least cost, over the variables of the formula, of a valuation that makes it true; zero if
there is none. -/
noncomputable def distance (weight : Variable → Nat) (p : Formula) (f : Valuation) : Nat :=
  sInf (p.costs weight p.occurrences.toFinset f)

/-- **Further variables make no difference**: the closest valuation may agree on them. -/
theorem distance_eq_of_subset (h : p.occurrences.toFinset ⊆ vs) :
    p.distance weight f = sInf (p.costs weight vs f) := by
  have reached : p.costs weight p.occurrences.toFinset f ⊆ p.costs weight vs f := by
    rintro n ⟨g, hg, rfl⟩
    -- Outside the formula `g` is free to follow `f`, so that it costs nothing there.
    have agree : ∀ v ∈ vs, v ∉ p.occurrences.toFinset → f v = p.graft g f v := fun v _ other =>
      (graft_eq_right (mt List.mem_toFinset.mpr other)).symm
    refine ⟨p.graft g f, holds_graft.trans hg, ?_⟩
    rw [← Valuation.cost_eq_of_agree h agree]
    exact Valuation.cost_congr (fun _ _ => rfl) fun v hv => graft_eq_left (List.mem_toFinset.mp hv)
  rcases Set.eq_empty_or_nonempty (p.costs weight vs f) with empty | nonempty
  · rw [distance, Set.subset_eq_empty reached empty, empty]
  · obtain ⟨g, hg, cheapest⟩ := Nat.sInf_mem nonempty
    have counted : Valuation.cost weight p.occurrences.toFinset f g ∈
        p.costs weight p.occurrences.toFinset f := ⟨g, hg, rfl⟩
    refine Nat.le_antisymm ?_ (Nat.sInf_le (reached (Nat.sInf_mem ⟨_, counted⟩)))
    calc
      p.distance weight f ≤ Valuation.cost weight p.occurrences.toFinset f g := Nat.sInf_le counted
      _ ≤ Valuation.cost weight vs f g := Valuation.cost_le_of_subset h
      _ = sInf (p.costs weight vs f) := cheapest

/-- **The distance depends on the meaning of the formula only.** -/
theorem distance_congr (h : ∀ g, p.holds g = q.holds g) :
    p.distance weight f = q.distance weight f := by
  have same : p.costs weight (p.occurrences.toFinset ∪ q.occurrences.toFinset) f =
      q.costs weight (p.occurrences.toFinset ∪ q.occurrences.toFinset) f := by
    simp only [costs, h]
  rw [distance_eq_of_subset Finset.subset_union_left, same,
    ← distance_eq_of_subset Finset.subset_union_right]

/-- The distance reads a valuation on the variables of the formula only. -/
theorem distance_congr_right (h : ∀ v ∈ p.occurrences, f v = g v) :
    p.distance weight f = p.distance weight g := by
  have same : p.costs weight p.occurrences.toFinset f = p.costs weight p.occurrences.toFinset g :=
    Set.image_congr fun _ _ =>
      Valuation.cost_congr (fun v hv => h v (List.mem_toFinset.mp hv)) fun _ _ => rfl
  rw [distance, distance, same]

theorem exists_cost_eq_distance (weight : Variable → Nat) (h : ∃ g, p.holds g = true)
    (f : Valuation) : ∃ g, p.holds g = true ∧
      Valuation.cost weight p.occurrences.toFinset f g = p.distance weight f := by
  obtain ⟨g, hg⟩ := h
  have nonempty : (p.costs weight p.occurrences.toFinset f).Nonempty := ⟨_, g, hg, rfl⟩
  exact Nat.sInf_mem nonempty

theorem distance_le_cost (h : p.holds g = true) (f : Valuation) :
    p.distance weight f ≤ Valuation.cost weight p.occurrences.toFinset f g :=
  Nat.sInf_le ⟨g, h, rfl⟩

/-- A formula is at distance zero where some valuation makes it true that differs on variables
without weight only. -/
theorem distance_eq_zero_iff (h : ∃ g, p.holds g = true) :
    p.distance weight f = 0 ↔ ∃ g, p.holds g = true ∧ ∀ v, weight v ≠ 0 → f v = g v := by
  constructor
  · intro zero
    obtain ⟨g, hg, cheapest⟩ := exists_cost_eq_distance weight h f
    have agree := Valuation.cost_eq_zero_iff.mp (cheapest.trans zero)
    refine ⟨p.graft g f, holds_graft.trans hg, fun v weighty => ?_⟩
    unfold graft
    split
    · next hv => exact agree v (List.mem_toFinset.mpr hv) weighty
    · rfl
  · rintro ⟨g, hg, agree⟩
    have free : Valuation.cost weight p.occurrences.toFinset f g = 0 :=
      Valuation.cost_eq_zero_iff.mpr fun v _ => agree v
    exact Nat.le_zero.mp (free ▸ distance_le_cost hg f)

theorem distance_eq_zero_of_holds (weight : Variable → Nat) (h : p.holds f = true) :
    p.distance weight f = 0 :=
  (distance_eq_zero_iff ⟨f, h⟩).mpr ⟨f, h, fun _ _ => rfl⟩

theorem distance_eq_zero_iff_holds (h : ∃ g, p.holds g = true)
    (weighty : ∀ v ∈ p.occurrences, weight v ≠ 0) :
    p.distance weight f = 0 ↔ p.holds f = true := by
  rw [distance_eq_zero_iff h]
  constructor
  · rintro ⟨g, hg, agree⟩
    rwa [holds_congr fun v hv => agree v (weighty v hv)]
  · exact fun hf => ⟨f, hf, fun _ _ => rfl⟩

/-- From a contradiction nothing is far. -/
theorem distance_bot (weight : Variable → Nat) (f : Valuation) : bot.distance weight f = 0 := by
  have empty : bot.costs weight bot.occurrences.toFinset f = ∅ := by
    rw [costs, Set.image_eq_empty]
    exact Set.eq_empty_of_forall_notMem fun _ hg => Bool.false_ne_true hg
  rw [distance, empty, Nat.sInf_empty]

/-- Variables without weight do not count for the distance. -/
theorem distance_congr_of_weight (h : ∀ v, weight v ≠ 0 → f v = g v) :
    p.distance weight f = p.distance weight g := by
  have same : p.costs weight p.occurrences.toFinset f = p.costs weight p.occurrences.toFinset g :=
    Set.image_congr fun _ _ => Valuation.cost_congr_of_weight h
  rw [distance, distance, same]

/-- **Formulas about different things add up**: the closest valuations of both parts go together. -/
theorem distance_and (apart : ∀ v ∈ p.occurrences, v ∉ q.occurrences)
    (hp : ∃ g, p.holds g = true) (hq : ∃ g, q.holds g = true) (f : Valuation) :
    (p.and q).distance weight f = p.distance weight f + q.distance weight f := by
  have parts : (p.and q).occurrences.toFinset =
      p.occurrences.toFinset ∪ q.occurrences.toFinset := by
    ext v
    rw [Finset.mem_union, List.mem_toFinset, List.mem_toFinset, List.mem_toFinset,
      mem_occurrences_and]
  have disjoint : Disjoint p.occurrences.toFinset q.occurrences.toFinset :=
    Finset.disjoint_left.mpr fun v hv hv' =>
      apart v (List.mem_toFinset.mp hv) (List.mem_toFinset.mp hv')
  have splits (g : Valuation) : Valuation.cost weight (p.and q).occurrences.toFinset f g =
      Valuation.cost weight p.occurrences.toFinset f g +
        Valuation.cost weight q.occurrences.toFinset f g := by
    rw [parts, Valuation.cost_union disjoint]
  obtain ⟨g, hg, closest⟩ := exists_cost_eq_distance weight hp f
  obtain ⟨h, hh, closest'⟩ := exists_cost_eq_distance weight hq f
  have joint : (p.and q).holds (p.graft g h) = true :=
    holds_and.mpr ⟨holds_graft.trans hg, (holds_graft_of_apart apart).trans hh⟩
  apply Nat.le_antisymm
  · have left : Valuation.cost weight p.occurrences.toFinset f (p.graft g h) =
        Valuation.cost weight p.occurrences.toFinset f g :=
      Valuation.cost_congr (fun _ _ => rfl) fun v hv => graft_eq_left (List.mem_toFinset.mp hv)
    have right : Valuation.cost weight q.occurrences.toFinset f (p.graft g h) =
        Valuation.cost weight q.occurrences.toFinset f h :=
      Valuation.cost_congr (fun _ _ => rfl) fun v hv =>
        graft_eq_right fun hv' => apart v hv' (List.mem_toFinset.mp hv)
    rw [← closest, ← closest', ← left, ← right, ← splits]
    exact distance_le_cost joint f
  · obtain ⟨i, hi, closest⟩ := exists_cost_eq_distance weight ⟨_, joint⟩ f
    obtain ⟨hip, hiq⟩ := holds_and.mp hi
    rw [← closest, splits]
    exact Nat.add_le_add (distance_le_cost hip f) (distance_le_cost hiq f)

/-- Conflicts with a model cost what the valuations do that both are cut from, if all variables of
the formula have values. -/
theorem IsOver.sum_conflicts {us : Vocabulary} (isOver : p.IsOver us) :
    ∑ v ∈ (g.on p.vocabulary).conflicts (f.on us), weight v =
      Valuation.cost weight p.occurrences.toFinset f g := by
  have shared (v : Variable) : v ∈ p.occurrences.toFinset ↔ v ∈ p.vocabulary ∧ v ∈ us := by
    rw [List.mem_toFinset, mem_vocabulary]
    exact (and_iff_left_of_imp (isOver v)).symm
  rw [Valuation.conflicts_on shared, Valuation.cost]

/-- The least weight of the conflicts with a model is the distance. -/
theorem LeastOver.eq_distance {us : Vocabulary} {n : Nat} (isOver : p.IsOver us)
    (h : p.LeastOver (fun m => ∑ v ∈ m.conflicts (f.on us), weight v) n) :
    n = p.distance weight f := by
  have same : {d | ∃ m, p.IsModel m ∧ ∑ v ∈ m.conflicts (f.on us), weight v = d} =
      p.costs weight p.occurrences.toFinset f := by
    ext d
    simp only [isModel_iff_exists_on]
    constructor
    · rintro ⟨_, ⟨g, hg, rfl⟩, rfl⟩
      exact ⟨g, hg, isOver.sum_conflicts.symm⟩
    · rintro ⟨g, hg, rfl⟩
      exact ⟨_, ⟨g, hg, rfl⟩, isOver.sum_conflicts⟩
  rcases h with least | ⟨unsatisfiable, rfl⟩
  · rw [same] at least
    exact least.csInf_eq.symm
  · have empty : p.costs weight p.occurrences.toFinset f = ∅ := by
      rw [← same]
      exact Set.eq_empty_of_forall_notMem fun d ⟨m, hm, _⟩ => unsatisfiable ⟨m, hm⟩
    rw [distance, empty, Nat.sInf_empty]

end Formula

/-! ## What remains possible -/

namespace Revision

variable {p : Preference} {k : Belief} {s : Formula} {f : Valuation}

/-- **What remains possible after a revision by nearness**: the sentence is true, and nothing that
makes it true is closer. -/
theorem holds_revise_nearest [Std.TransCmp (p.comparison k)] :
    ((nearest p).revise k s).formula.holds f = true ↔ s.holds f = true ∧
      ∀ g, s.holds g = true → p.comparison k (g.on (scope k s)) (f.on (scope k s)) ≠ .lt := by
  have possible :
      (∃ x ∈ nearestOf p k s, x.CompletesTo f) ↔ f.on (scope k s) ∈ nearestOf p k s := by
    constructor
    · rintro ⟨x, hx, completes⟩
      rwa [← Assignment.eq_on_of_completesTo (mem_nearestOf.mp hx).1.1 completes]
    · exact fun h => ⟨_, h, Assignment.completesTo_on f _⟩
  have candidate : f.on (scope k s) ∈ (completed k s).models ↔ s.holds f = true := by
    rw [mem_models_completed, and_iff_right (Assignment.isOn_on f _),
      (isOver_scope k s).evaluate_on, Except.ok.injEq]
  rw [formula_revise_nearest, Assignment.holds_ofAssignments, possible, nearestOf,
    Comparison.mem_nearest, candidate]
  simp only [mem_models_completed_iff_exists_on, forall_exists_index, and_imp,
    forall_apply_eq_imp_iff₂]

/-- Something remains possible if the sentence can be true. -/
theorem exists_holds_revise_nearest [Std.TransCmp (p.comparison k)] (h : ∃ g, s.holds g = true) :
    ∃ g, ((nearest p).revise k s).formula.holds g = true := by
  rw [formula_revise_nearest, ← Formula.isSatisfiable_iff, isSatisfiable_ofAssignments, Ne,
    nearestOf_eq_nil_iff, Bool.not_eq_false, Formula.isSatisfiable_iff]
  exact h

end Revision

namespace Weights

variable {w : Weights} {k : Belief} {s : Formula}

/-- The weights of the conflicts add up between every model of the belief state and every candidate
for what remains possible where the sentence revises it. -/
def AddUpIn (w : Weights) (k : Belief) (s : Formula) : Prop :=
  ∀ m ∈ k.formula.models, ∀ a ∈ (Revision.completed k s).models, w.AddUp m a

instance : Decidable (w.AddUpIn k s) := inferInstanceAs (Decidable (∀ m ∈ _, ∀ a ∈ _, w.AddUp m a))

/-- Whether weights add up depends on what makes the belief state true and what makes the sentence
true, and on the variables of the former. -/
theorem addUpIn_iff : w.AddUpIn k s ↔ ∀ f, k.formula.holds f = true → ∀ g, s.holds g = true →
    Valuation.cost (fun v => (w.weightOf v).toNat) k.formula.occurrences.toFinset g f <
      UInt64.size := by
  simp only [AddUpIn, AddUp, Revision.mem_models_completed_iff_exists_on]
  simp only [Formula.mem_models, Formula.isModel_iff_exists_on, forall_exists_index, and_imp,
    forall_apply_eq_imp_iff₂, (Revision.isOver_scope_left k s).sum_conflicts]

/-- If the weights of all variables of the belief state add up, they do so for any sentence. -/
theorem addUpIn_of_sum_lt
    (h : ∑ v ∈ k.formula.occurrences.toFinset, (w.weightOf v).toNat < UInt64.size) (s : Formula) :
    w.AddUpIn k s :=
  addUpIn_iff.mpr fun _ _ _ _ =>
    (Finset.sum_le_sum_of_subset (Finset.filter_subset _ _)).trans_lt h

/-- Two weights of half a word each add up for a sentence that keeps one of the beliefs, but not for
one by which both can be given up. -/
example :
    let w := ofEntries [("p", 9223372036854775808), ("q", 9223372036854775808)]
    w.AddUpIn {.var "p", .var "q"} (.or (.var "p") (.var "q")) ∧
      ¬w.AddUpIn {.var "p", .var "q"} (.binary .iff (.var "p") (.var "q")) := by
  decide +kernel

end Weights

namespace Preference

variable {p : Preference} {weight : Variable → Nat} {k : Belief} {s : Formula} {f : Valuation}

/-- Where the sentence revises the belief state, the preference compares assignments by the least
weight of the conflicts with a model of the belief state. -/
def Weighs (p : Preference) (weight : Variable → Nat) (k : Belief) (s : Formula) : Prop :=
  p.Measures k fun a n => a ∈ (Revision.completed k s).models →
    k.formula.LeastOver (fun m => ∑ v ∈ m.conflicts a, weight v) n

theorem weighs_hamming : hamming.Weighs (fun _ => 1) k s :=
  measures_hamming.imp fun a n least _ => by simpa only [Finset.card_eq_sum_ones] using least

theorem weighs_weighted {w : Weights} (h : w.AddUpIn k s) :
    (weighted w).Weighs (fun v => (w.weightOf v).toNat) k s :=
  (measures_weighted w).imp fun a _ least ha =>
    least fun m hm => h m (Formula.mem_models.mpr hm) a ha

theorem transCmp_of_compare {d : Assignment → Nat}
    (compares : ∀ a b, p.comparison k a b = compare (d a) (d b)) :
    Std.TransCmp (p.comparison k) := by
  rw [show p.comparison k = compareOn d from funext₂ compares]
  infer_instance

theorem Weighs.transCmp (h : p.Weighs weight k s) : Std.TransCmp (p.comparison k) :=
  let ⟨_, compares, _⟩ := h
  transCmp_of_compare compares

/-- What remains possible by a number: the valuations of least number among those that make the
sentence true. -/
theorem holds_revise_of_compare {d : Assignment → Nat}
    (compares : ∀ a b, p.comparison k a b = compare (d a) (d b)) :
    ((Revision.nearest p).revise k s).formula.holds f = true ↔ s.holds f = true ∧
      ∀ g, s.holds g = true → d (f.on (Revision.scope k s)) ≤ d (g.on (Revision.scope k s)) := by
  have preorder := transCmp_of_compare compares
  rw [Revision.holds_revise_nearest]
  refine and_congr_right fun _ => forall₂_congr fun g _ => ?_
  rw [compares, Ne, Nat.compare_eq_lt, Nat.not_lt]

/-- **What remains possible by conflicts**: the valuations of least distance among those that make
the sentence true. -/
theorem Weighs.holds_revise (h : p.Weighs weight k s) :
    ((Revision.nearest p).revise k s).formula.holds f = true ↔ s.holds f = true ∧
      ∀ g, s.holds g = true → k.formula.distance weight f ≤ k.formula.distance weight g := by
  obtain ⟨d, compares, least⟩ := h
  have measured {g : Valuation} (hg : s.holds g = true) :
      d (g.on (Revision.scope k s)) = k.formula.distance weight g := by
    have candidate : g.on (Revision.scope k s) ∈ (Revision.completed k s).models :=
      Revision.mem_models_completed_iff_exists_on.mpr ⟨g, hg, rfl⟩
    exact (least _ candidate).eq_distance (Revision.isOver_scope_left k s)
  rw [holds_revise_of_compare compares]
  refine and_congr_right fun hf => forall₂_congr fun g hg => ?_
  rw [measured hf, measured hg]

/-! ## Preferences by conflicts -/

/-- What a conflict about a variable weighs: the distance of an assignment to it from the other
one. -/
def conflictWeight (p : Preference) (v : Variable) : Nat :=
  match p.closeness with
  | .distance metric => metric.distance ∅ [.ofEntries [(v, true)]] (.ofEntries [(v, false)])
  | .order _ => 0

theorem conflictWeight_hamming : hamming.conflictWeight = fun _ => 1 := by
  funext v
  change (Assignment.ofEntries [(v, true)]).hamming (.ofEntries [(v, false)]) = 1
  rw [Assignment.hamming_eq_card, Assignment.conflicts_alone, Finset.card_singleton]

theorem conflictWeight_weighted (w : Weights) :
    (weighted w).conflictWeight = fun v => (w.weightOf v).toNat := by
  funext v
  change (Assignment.ofEntries [(v, true)]).weighted w (.ofEntries [(v, false)]) = _
  have alone : ∑ u ∈ (Assignment.ofEntries [(v, true)]).conflicts (.ofEntries [(v, false)]),
      (w.weightOf u).toNat = (w.weightOf v).toNat := by
    rw [Assignment.conflicts_alone, Finset.sum_singleton]
  rw [Assignment.weighted_eq_mod, alone, Nat.mod_eq_of_lt (w.weightOf v).toNat_lt_size]

/-- The preference counts conflicts, or weighs them, and the weights add up where the sentence
revises the belief state. -/
inductive ByConflicts (k : Belief) (s : Formula) : Preference → Prop where
  | hamming : ByConflicts k s hamming
  | weighted {w : Weights} (addUp : w.AddUpIn k s) : ByConflicts k s (weighted w)

theorem ByConflicts.weighs (h : p.ByConflicts k s) : p.Weighs p.conflictWeight k s := by
  cases h with
  | hamming =>
    rw [conflictWeight_hamming]
    exact weighs_hamming
  | weighted addUp =>
    rw [conflictWeight_weighted]
    exact weighs_weighted addUp

/-- What adds up for a sentence adds up for a stronger one. -/
theorem ByConflicts.and (h : p.ByConflicts k s) (t : Formula) : p.ByConflicts k (s.and t) := by
  cases h with
  | hamming => exact .hamming
  | weighted addUp =>
    rw [Weights.addUpIn_iff] at addUp
    exact .weighted (Weights.addUpIn_iff.mpr fun f hf g hg =>
      addUp f hf g (Formula.holds_and.mp hg).1)

end Preference

end BeliefRevision
