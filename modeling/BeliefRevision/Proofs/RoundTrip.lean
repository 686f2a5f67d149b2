import BeliefRevision.Model.NormalForm
import BeliefRevision.Proofs.Nearness

/-!
# Assignments written as formulas and read back

Assignments to the same variables are written as one formula, the disjunction of their conjunctions
of literals, and read back as its models. Nothing is lost on the way, although the formula collapses
where it can: no assignment is written as `bot`, the empty one as `top`, and a single literal or a
single conjunction stands alone. As soon as one assignment is listed, all of its variables occur in
the formula (`mem_vocabulary_ofAssignments`), and the empty list has no models in any case.

A belief state that a revision by nearness leaves behind stands for assignments written in this way,
so that a comparator for it starts from the ones that were kept (`models_nearestOf_perm`).

* **`assignments_read_back`**: for lists of assignments, for full normal forms and for revisions.
-/

namespace BeliefRevision

/-! ## Written assignments -/

namespace Assignment

variable {as : List Assignment} {vs : Vocabulary} {x : Assignment} {v : Variable}

/-- The listed assignments give values to the same variables. -/
def SameDomain (as : List Assignment) : Prop := ∀ a ∈ as, ∀ b ∈ as, a.domain = b.domain

instance : DecidablePred SameDomain := fun as =>
  inferInstanceAs (Decidable (∀ a ∈ as, ∀ b ∈ as, a.domain = b.domain))

theorem SameDomain.exists_vocabulary (h : SameDomain as) :
    ∃ vs : Vocabulary, ∀ a ∈ as, a.IsOn vs := by
  rcases as with _ | ⟨a, as⟩
  · exact ⟨∅, List.forall_mem_nil _⟩
  · refine ⟨.ofList a.domain, fun b hb v => ?_⟩
    rw [mem_vocabulary_ofList, ← h b hb a List.mem_cons_self, mem_domain]

theorem mem_vocabulary_ofAssignments (on : ∀ a ∈ as, a.IsOn vs) (nonempty : as ≠ []) :
    v ∈ (Formula.ofAssignments as).vocabulary ↔ v ∈ vs := by
  rw [Formula.mem_vocabulary, mem_occurrences_ofAssignments]
  refine ⟨fun ⟨a, ha, given⟩ => (on a ha v).mp given, fun hv => ?_⟩
  obtain ⟨a, ha⟩ := List.exists_mem_of_ne_nil as nonempty
  exact ⟨a, ha, (on a ha v).mpr hv⟩

/-- **The models of written assignments are these assignments.** -/
theorem mem_models_ofAssignments (on : ∀ a ∈ as, a.IsOn vs) :
    x ∈ (Formula.ofAssignments as).models ↔ x ∈ as := by
  rw [Formula.mem_models, Formula.IsModel]
  rcases eq_or_ne as [] with rfl | nonempty
  · exact iff_of_false (fun h => Bool.false_ne_true (Except.ok.inj h.2)) List.not_mem_nil
  · have domain : x.IsOn (Formula.ofAssignments as).vocabulary ↔ x.IsOn vs :=
      forall_congr' fun v => by rw [mem_vocabulary_ofAssignments on nonempty]
    rw [domain, Revision.isOn_and_evaluate_ofAssignments on]

end Assignment

theorem Formula.mem_models_toFullDnf {p : Formula} {x : Assignment} :
    x ∈ p.toFullDnf.models ↔ x ∈ p.models :=
  Assignment.mem_models_ofAssignments fun _ ha => (Formula.mem_models.mp ha).1

/-! ## Belief states of written assignments -/

namespace Comparison

variable {cmp : Comparison}

theorem keepNearest_sublist (kept : List Assignment) (a : Assignment) :
    (cmp.keepNearest kept a).Sublist (kept ++ [a]) := by
  rcases kept with _ | ⟨best, ties⟩
  · exact .refl _
  · unfold keepNearest
    dsimp only
    cases cmp a best with
    | lt => exact List.sublist_append_right _ _
    | eq => exact .refl _
    | gt => exact List.sublist_append_left _ _

/-- What is kept of a list is kept in its order. -/
theorem nearest_sublist (as : List Assignment) : (cmp.nearest as).Sublist as := by
  induction as using List.reverseRecOn with
  | nil => exact .refl _
  | append_singleton as a ih =>
    rw [nearest_append]
    exact (keepNearest_sublist _ a).trans (ih.append_right [a])

end Comparison

namespace Revision

variable {p : Preference} {k : Belief} {s : Formula}

/-- The nearest assignments are read back as they were kept. -/
theorem models_nearestOf_perm :
    (Formula.ofAssignments (nearestOf p k s)).models.Perm (nearestOf p k s) := by
  have kept : (nearestOf p k s).Sublist (completed k s).models := Comparison.nearest_sublist _
  have on : ∀ a ∈ nearestOf p k s, a.IsOn (completed k s).vocabulary := fun a ha =>
    (Formula.mem_models.mp (kept.subset ha)).1
  rw [List.perm_ext_iff_of_nodup (Formula.nodup_models _) ((Formula.nodup_models _).sublist kept)]
  exact fun x => Assignment.mem_models_ofAssignments on

/-- The assignment to all variables involved satisfies the sentence, and none that does is closer to
the belief state. -/
def IsNearest (p : Preference) (k : Belief) (s : Formula) (x : Assignment) : Prop :=
  (x.IsOn (scope k s) ∧ s.evaluate x = .ok true) ∧
    ∀ y : Assignment, y.IsOn (scope k s) → s.evaluate y = .ok true → p.comparison k y x ≠ .lt

/-- The belief state is what the revision leaves behind, when it runs alone or under a signal. -/
def LeavesBehind (r : Revision) (k : Belief) (s : Formula) (k' : Belief) : Prop :=
  r.revise k s = k' ∨ ∃ signal, (r.attempt k s).outcome signal = .ok k'

theorem LeavesBehind.revise_eq {r : Revision} {k' : Belief} (h : r.LeavesBehind k s k') :
    r.revise k s = k' := by
  rcases h with h | ⟨signal, h⟩
  · exact h
  · exact Except.ok.inj ((returns_attempt r k s).outcome_eq_ok h)

end Revision

/-- **Assignments survive being written as formulas.** Of any list of assignments to the same
variables, the formula written for it has just these models, each once. So the full normal form of
a formula has the models of the formula, as assignments to the same variables. And a comparator
for the belief state that a revision by nearness leaves behind starts from just those assignments
that the revision has kept, which are the nearest ones if the preference is a total preorder. -/
theorem assignments_read_back :
    (∀ as : List Assignment, Assignment.SameDomain as →
      (Formula.ofAssignments as).models.Nodup ∧
        ∀ x, x ∈ (Formula.ofAssignments as).models ↔ x ∈ as) ∧
    (∀ p : Formula, p.ListsModels p.toFullDnf.models ∧ p.toFullDnf.models.Perm p.models) ∧
    ∀ (p : Preference) (k k' : Belief) (s : Formula), (Revision.nearest p).LeavesBehind k s k' →
      ∀ (metric : Metric) (alarm : Alarm),
        (DistanceComparator.new k' metric alarm).models.Perm
          (Signal.unwatched (Revision.nearestModels p false k s)).1 ∧
        (Std.TransCmp (p.comparison k) →
          ∀ x, x ∈ (DistanceComparator.new k' metric alarm).models ↔
            Revision.IsNearest p k s x) := by
  refine ⟨fun as same => ?_, fun p => ?_, fun p k k' s left metric alarm => ?_⟩
  · obtain ⟨vs, on⟩ := same.exists_vocabulary
    exact ⟨Formula.nodup_models _, fun x => Assignment.mem_models_ofAssignments on⟩
  · refine ⟨⟨Formula.nodup_models _, fun x => ?_⟩, ?_⟩
    · rw [Formula.mem_models_toFullDnf, (Formula.listsModels p).mem_iff]
    · rw [List.perm_ext_iff_of_nodup (Formula.nodup_models _) (Formula.nodup_models _)]
      exact fun x => Formula.mem_models_toFullDnf
  · have models : (DistanceComparator.new k' metric alarm).models =
        (Formula.ofAssignments (Revision.nearestOf p k s)).models := by
      rw [DistanceComparator.new, ← left.revise_eq, Revision.formula_revise_nearest]
    rw [models, (Revision.returns_nearestModels p false k s).unwatched_eq]
    refine ⟨Revision.models_nearestOf_perm, fun trans x => ?_⟩
    rw [Revision.models_nearestOf_perm.mem_iff, Revision.mem_nearestOf, Revision.IsNearest]

/-- Of an assignment that is listed twice, one is left. And where a revision keeps two assignments,
a comparator for its result starts from these. -/
theorem assignments_read_back_two :
    Assignment.SameDomain [.ofList [("p", true), ("q", false)],
      .ofList [("p", false), ("q", true)], .ofList [("p", true), ("q", false)]] ∧
    (Formula.ofAssignments [.ofList [("p", true), ("q", false)],
      .ofList [("p", false), ("q", true)], .ofList [("p", true), ("q", false)]]).models.Nodup ∧
    (Revision.nearest .fewestTrue).LeavesBehind {.var "p"} (.join .or [.var "p", .var "q"])
      {.ofAssignments [.ofList [("p", true), ("q", false)],
        .ofList [("p", false), ("q", true)]]} ∧
    Std.TransCmp (Preference.fewestTrue.comparison {.var "p"}) ∧
    ∀ x, x ∈ (DistanceComparator.new {.ofAssignments [.ofList [("p", true), ("q", false)],
        .ofList [("p", false), ("q", true)]]} .hamming .never).models ↔
      Revision.IsNearest .fewestTrue {.var "p"} (.join .or [.var "p", .var "q"]) x :=
  have same : Assignment.SameDomain [.ofList [("p", true), ("q", false)],
      .ofList [("p", false), ("q", true)], .ofList [("p", true), ("q", false)]] := by decide +kernel
  have left : (Revision.nearest .fewestTrue).LeavesBehind {.var "p"}
      (.join .or [.var "p", .var "q"])
      {.ofAssignments [.ofList [("p", true), ("q", false)],
        .ofList [("p", false), ("q", true)]]} := .inl (by decide +kernel)
  have preorder : Std.TransCmp (Preference.fewestTrue.comparison {.var "p"}) :=
    inferInstanceAs (Std.TransCmp (compareOn fun a : Assignment =>
      (a.toList.filter Prod.snd).length))
  ⟨same, (assignments_read_back.1 _ same).1, left, preorder,
    (assignments_read_back.2.2 _ _ _ _ left .hamming .never).2 preorder⟩

end BeliefRevision
