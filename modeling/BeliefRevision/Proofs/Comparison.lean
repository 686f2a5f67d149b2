import BeliefRevision.Announcement.Classes
import BeliefRevision.Belief.Revision
import BeliefRevision.Proofs.Watching

/-!
# What comparators answer

A comparator carries a memory and an alarm, but its answers are those of a plain comparison of
assignments. `Comparator.Judges` is the invariant that makes them so: what is remembered is true.
It holds of a new comparator and is kept by every answer (`gives_compare`), so that whatever is
done with a comparator can be done with its comparison instead: keeping the nearest assignments
(`gives_keepNearest`) and splitting assignments into classes (`gives_classes`).
-/

namespace BeliefRevision

/-- A comparison of assignments; less is closer. -/
abbrev Comparison := Assignment → Assignment → Ordering

/-- The comparison that a preference makes for a belief state. -/
def Preference.comparison (p : Preference) (k : Belief) : Comparison :=
  match p.closeness with
  | .distance metric => fun a b =>
    compare (metric.distance k k.formula.models a) (metric.distance k k.formula.models b)
  | .order order => order k

namespace Comparison

variable (cmp : Comparison)

/-- `Comparator.keepNearest` without a comparator. -/
def keepNearest (kept : List Assignment) (a : Assignment) : List Assignment :=
  match kept with
  | [] => [a]
  | best :: ties =>
    match cmp a best with
    | .lt => [a]
    | .eq => best :: ties ++ [a]
    | .gt => best :: ties

/-- `Comparator.insertFarthest` without a comparator. -/
def insertFarthest (a : Assignment) : List Assignment → List Assignment
  | [] => [a]
  | b :: bs => if cmp a b = .lt then b :: insertFarthest a bs else a :: b :: bs

/-- `Comparator.sortFarthest` without a comparator. -/
def sortFarthest (as : List Assignment) : List Assignment :=
  as.foldl (fun sorted a => cmp.insertFarthest a sorted) []

/-- `Comparator.groupTies` without a comparator. -/
def groupTies (head : Assignment) (ties : List Assignment) :
    List Assignment → List (List Assignment)
  | [] => [head :: ties]
  | a :: as =>
    if cmp head a = .eq then groupTies head (ties ++ [a]) as
    else (head :: ties) :: groupTies a [] as

/-- The classes of assignments that tie with each other, closest first. -/
def classes (as : List Assignment) : List (List Assignment) :=
  match (cmp.sortFarthest as).reverse with
  | [] => []
  | a :: as => cmp.groupTies a [] as

variable {cmp} in
theorem ne_lt_iff [Std.TransCmp cmp] {a b : Assignment} :
    cmp b a ≠ .lt ↔ (cmp a b).isLE = true := by
  constructor
  · intro h
    refine Decidable.byContradiction fun gt => ?_
    exact h (Std.OrientedCmp.lt_of_not_isLE gt)
  · exact Std.OrientedCmp.not_lt_of_isLE

end Comparison

/-- The classes of equal distance, least distance first. -/
def Buckets.classes (d : Assignment → Nat) (as : List Assignment) : List (List Assignment) :=
  (as.foldl (fun buckets a => buckets.file (d a) a) (∅ : Buckets)).toList.map Prod.snd

/-! ## Comparators by distance -/

namespace DistanceComparator

/-- Every distance that is remembered is the one that the metric gives. -/
def Faithful (c : DistanceComparator) : Prop :=
  ∀ a d, c.known[a]? = some d → d = c.trueDistance a

/-- The comparator once it has been asked for the distance of an assignment. -/
def remember (c : DistanceComparator) (a : Assignment) : DistanceComparator :=
  if a ∈ c.known then c
  else { c with known := c.known.insert a (c.trueDistance a), applications := c.applications + 1 }

theorem faithful_new (k : Belief) (metric : Metric) (alarm : Alarm) :
    (new k metric alarm).Faithful := fun a d h => by simp [new] at h

theorem trueDistance_remember (c : DistanceComparator) (a : Assignment) :
    (c.remember a).trueDistance = c.trueDistance := by
  unfold remember
  split <;> rfl

variable {c : DistanceComparator}

theorem Faithful.remember (h : c.Faithful) (a : Assignment) : (c.remember a).Faithful := by
  intro b d hb
  rw [trueDistance_remember]
  unfold DistanceComparator.remember at hb
  split at hb
  · exact h b d hb
  · rw [Std.ExtTreeMap.getElem?_insert] at hb
    split at hb
    · next same =>
      rw [Std.LawfulEqOrd.compare_eq_iff_eq] at same
      subst same
      exact (Option.some.inj hb).symm
    · exact h b d hb

/-- A faithful comparator gives the true distance, remembered or not. -/
theorem gives_distance (h : c.Faithful) (a : Assignment) :
    (c.distance a).Gives (c.trueDistance a, c.remember a) := by
  unfold distance remember
  by_cases known : a ∈ c.known
  · have hd := Std.ExtTreeMap.getElem?_eq_some_getElem known
    rw [hd, if_pos known, ← h a _ hd]
    exact Watched.returns_pure _
  · rw [Std.ExtTreeMap.getElem?_eq_none known, if_neg known]
    exact Signal.gives_alarm.bind (Watched.returns_pure _)

theorem gives_compare (h : c.Faithful) (a b : Assignment) :
    (c.compare a b).Gives
      (Ord.compare (c.trueDistance a) (c.trueDistance b), (c.remember a).remember b) := by
  refine (gives_distance h a).bind ((gives_distance (h.remember a) b).bind ?_)
  rw [trueDistance_remember]
  exact Watched.returns_pure _

theorem gives_fileAll (h : c.Faithful) (buckets : Buckets) (as : List Assignment) :
    (c.fileAll buckets as).Gives
      (as.foldl (fun buckets a => buckets.file (c.trueDistance a) a) buckets) := by
  induction as generalizing c buckets with
  | nil => exact Watched.returns_pure buckets
  | cons a as ih =>
    refine (gives_distance h a).bind ?_
    rw [List.foldl_cons, ← trueDistance_remember c a]
    exact ih (h.remember a) _

theorem gives_classes (h : c.Faithful) (as : List Assignment) :
    (c.classes as).Gives (Buckets.classes c.trueDistance as) :=
  (gives_fileAll h ∅ as).bind (Watched.returns_pure _)

end DistanceComparator

/-! ## Comparators of any kind -/

namespace Comparator

/-- The comparison by which a comparator answers. -/
def comparison : Comparator → Comparison
  | byDistance c => fun a b => Ord.compare (c.trueDistance a) (c.trueDistance b)
  | byOrder c => c.order

/-- All that the comparator remembers is true. -/
def Faithful : Comparator → Prop
  | byDistance c => c.Faithful
  | byOrder _ => True

/-- The comparator answers by the comparison, and all that it remembers is true. -/
structure Judges (c : Comparator) (cmp : Comparison) : Prop where
  faithful : c.Faithful
  comparison_eq : c.comparison = cmp

theorem judges_comparison (p : Preference) (k : Belief) :
    (p.comparator k).Judges (p.comparison k) := by
  obtain ⟨closeness, alarm⟩ := p
  cases closeness with
  | distance metric => exact ⟨DistanceComparator.faithful_new k metric alarm, rfl⟩
  | order order => exact ⟨trivial, rfl⟩

variable {c : Comparator} {cmp : Comparison}

/-- **A comparator answers as its comparison does**, and will do so again. -/
theorem gives_compare (h : c.Judges cmp) (a b : Assignment) :
    ∃ c', (c.compare a b).Gives (cmp a b, c') ∧ c'.Judges cmp := by
  obtain ⟨faithful, rfl⟩ := h
  cases c with
  | byDistance c =>
    refine ⟨byDistance ((c.remember a).remember b),
      (DistanceComparator.gives_compare faithful a b).bind (Watched.returns_pure _),
      (faithful.remember a).remember b, ?_⟩
    dsimp only [comparison]
    rw [DistanceComparator.trueDistance_remember, DistanceComparator.trueDistance_remember]
  | byOrder c =>
    have answer : (c.compare a b).Gives
        (c.order a b, { c with applications := c.applications + 1 }) :=
      Signal.gives_alarm.bind (Watched.returns_pure _)
    exact ⟨byOrder { c with applications := c.applications + 1 },
      answer.bind (Watched.returns_pure _), trivial, rfl⟩

theorem gives_keepNearest (h : c.Judges cmp) (kept : List Assignment) (a : Assignment) :
    ∃ c', (c.keepNearest kept a).Gives (cmp.keepNearest kept a, c') ∧ c'.Judges cmp := by
  cases kept with
  | nil => exact ⟨c, Watched.returns_pure _, h⟩
  | cons best ties =>
    obtain ⟨c', answer, judges⟩ := gives_compare h a best
    refine ⟨c', answer.bind ?_, judges⟩
    dsimp only [Comparison.keepNearest]
    cases cmp a best <;> exact Watched.returns_pure _

theorem gives_insertFarthest (h : c.Judges cmp) (a : Assignment) (sorted : List Assignment) :
    ∃ c', (c.insertFarthest a sorted).Gives (cmp.insertFarthest a sorted, c') ∧
      c'.Judges cmp := by
  induction sorted generalizing c with
  | nil => exact ⟨c, Watched.returns_pure _, h⟩
  | cons b bs ih =>
    obtain ⟨c₁, answer, judges₁⟩ := gives_compare h a b
    unfold insertFarthest Comparison.insertFarthest
    by_cases lt : cmp a b = .lt
    · obtain ⟨c₂, rest, judges₂⟩ := ih judges₁
      refine ⟨c₂, answer.bind ?_, judges₂⟩
      simp only [if_pos lt]
      exact rest.bind (Watched.returns_pure _)
    · refine ⟨c₁, answer.bind ?_, judges₁⟩
      simp only [if_neg lt]
      exact Watched.returns_pure _

theorem gives_sortFarthest (h : c.Judges cmp) (sorted as : List Assignment) :
    ∃ c', (c.sortFarthest sorted as).Gives
      (as.foldl (fun sorted a => cmp.insertFarthest a sorted) sorted, c') ∧ c'.Judges cmp := by
  induction as generalizing c sorted with
  | nil => exact ⟨c, Watched.returns_pure _, h⟩
  | cons a as ih =>
    obtain ⟨c₁, first, judges₁⟩ := gives_insertFarthest h a sorted
    obtain ⟨c₂, rest, judges₂⟩ := ih judges₁ (cmp.insertFarthest a sorted)
    exact ⟨c₂, first.bind rest, judges₂⟩

theorem gives_groupTies (h : c.Judges cmp) (head : Assignment) (ties as : List Assignment) :
    (c.groupTies head ties as).Gives (cmp.groupTies head ties as) := by
  induction as generalizing c head ties with
  | nil => exact Watched.returns_pure _
  | cons a as ih =>
    obtain ⟨c', answer, judges⟩ := gives_compare h head a
    refine answer.bind ?_
    unfold Comparison.groupTies
    by_cases tie : cmp head a = .eq
    · simp only [if_pos tie]
      exact ih judges head _
    · simp only [if_neg tie]
      exact (ih judges a []).bind (Watched.returns_pure _)

theorem gives_classes (h : c.Judges cmp) (as : List Assignment) :
    (c.classes as).Gives (cmp.classes as) := by
  obtain ⟨c', sorted, judges⟩ := gives_sortFarthest h [] as
  refine sorted.bind ?_
  unfold Comparison.classes Comparison.sortFarthest
  dsimp only
  cases (as.foldl (fun sorted a => cmp.insertFarthest a sorted) []).reverse with
  | nil => exact Watched.returns_pure []
  | cons a as => exact gives_groupTies judges a [] as

end Comparator

end BeliefRevision
