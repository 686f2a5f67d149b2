import Mathlib.Data.Finset.Card
import BeliefRevision.Proofs.Comparison

/-!
# What comparators by distance remember

A comparator by distance is asked for distances and for comparisons, in any order and as often as
its users like, and remembers what it has computed. None of this shows in its answers.

The invariant is `DistanceComparator.Remembers`: the comparator knows just the assignments that it
has been asked about, each with its true distance, and has applied its metric once for each. A new
comparator satisfies it for no assignments, and being asked about one more adds this one
(`Remembers.remember`); questions do nothing else (`Remembers.gives_put`, `Remembers.gives_putAll`).

* **`answers_as_computed`**: the answers to all questions, and what is remembered after them.
-/

namespace BeliefRevision

/-- The distance of an assignment from a belief state, computed afresh. -/
def Metric.distanceFrom (metric : Metric) (k : Belief) (a : Assignment) : Nat :=
  metric.distance k k.formula.models a

/-! ## Questions -/

/-- A question to a comparator by distance. -/
inductive Question where
  /-- How far away is the assignment? -/
  | distance (a : Assignment)
  /-- Which of the two assignments is closer? -/
  | compare (a b : Assignment)

/-- An answer of a comparator by distance. -/
inductive Answer where
  /-- The assignment is so far away. -/
  | distance (d : Nat)
  /-- The first assignment is closer, as close or farther away. -/
  | order (o : Ordering)
deriving DecidableEq

namespace Question

/-- The assignments whose distances are asked for, in this order. -/
def subjects : Question → List Assignment
  | distance a => [a]
  | compare a b => [a, b]

/-- The answer, given the distances. -/
def answer (d : Assignment → Nat) : Question → Answer
  | distance a => .distance (d a)
  | compare a b => .order (Ord.compare (d a) (d b))

/-- Puts the question to a comparator. -/
def put (c : DistanceComparator) : Question → Watched (Answer × DistanceComparator)
  | distance a => do
    let (d, c) ← c.distance a
    pure (.distance d, c)
  | compare a b => do
    let (o, c) ← c.compare a b
    pure (.order o, c)

/-- Puts one question after the other. -/
def putAll (c : DistanceComparator) :
    List Question → Watched (List Answer × DistanceComparator)
  | [] => pure ([], c)
  | q :: qs => do
    let (answer, c) ← q.put c
    let (answers, c) ← putAll c qs
    pure (answer :: answers, c)

/-- All assignments that the questions are about. -/
def allSubjects (qs : List Question) : Finset Assignment := (qs.flatMap subjects).toFinset

theorem allSubjects_append (qs qs' : List Question) :
    allSubjects (qs ++ qs') = allSubjects qs ∪ allSubjects qs' := by
  rw [allSubjects, List.flatMap_append, List.toFinset_append]
  rfl

end Question

/-! ## Remembering -/

namespace DistanceComparator

/-- The comparator remembers the distances of just these assignments, and has applied its metric
once for each. -/
structure Remembers (c : DistanceComparator) (d : Assignment → Nat) (asked : Finset Assignment) :
    Prop where
  trueDistance_eq : c.trueDistance = d
  known_iff : ∀ a n, c.known[a]? = some n ↔ a ∈ asked ∧ d a = n
  applications_eq : c.applications = asked.card

theorem remembers_new (k : Belief) (metric : Metric) (alarm : Alarm) :
    (new k metric alarm).Remembers (metric.distanceFrom k) ∅ :=
  ⟨rfl, fun a n => by simp [new], rfl⟩

variable {c : DistanceComparator} {d : Assignment → Nat} {asked : Finset Assignment}

theorem Remembers.faithful (h : c.Remembers d asked) : c.Faithful := fun a n hn => by
  rw [h.trueDistance_eq]
  exact ((h.known_iff a n).mp hn).2.symm

theorem Remembers.mem_known_iff (h : c.Remembers d asked) {a : Assignment} :
    a ∈ c.known ↔ a ∈ asked := by
  rw [Std.ExtTreeMap.mem_iff_isSome_getElem?, Option.isSome_iff_exists]
  simp only [h.known_iff, exists_and_left, exists_eq', and_true]

/-- **Being asked about one more assignment** adds its distance, at the cost of an application of
the metric if it is a new one. -/
theorem Remembers.remember (h : c.Remembers d asked) (a : Assignment) :
    (c.remember a).Remembers d (insert a asked) := by
  refine ⟨(c.trueDistance_remember a).trans h.trueDistance_eq, fun b n => ?_, ?_⟩
  · unfold DistanceComparator.remember
    split
    · next known =>
      rw [h.known_iff, Finset.insert_eq_of_mem (h.mem_known_iff.mp known)]
    · rw [Std.ExtTreeMap.getElem?_insert, Finset.mem_insert, h.trueDistance_eq]
      simp only [Std.LawfulEqOrd.compare_eq_iff_eq]
      by_cases same : a = b
      · subst same
        simp
      · rw [if_neg same, h.known_iff, or_iff_right (Ne.symm same)]
  · unfold DistanceComparator.remember
    split
    · next known =>
      rw [h.applications_eq, Finset.insert_eq_of_mem (h.mem_known_iff.mp known)]
    · next unknown =>
      rw [Finset.card_insert_of_notMem (mt h.mem_known_iff.mpr unknown), ← h.applications_eq]

/-- One question. -/
theorem Remembers.gives_put (h : c.Remembers d asked) (q : Question) :
    ∃ c', (q.put c).Gives (q.answer d, c') ∧ c'.Remembers d (asked ∪ q.subjects.toFinset) := by
  obtain rfl := h.trueDistance_eq
  cases q with
  | distance a =>
    refine ⟨c.remember a, (gives_distance h.faithful a).bind (Watched.returns_pure _), ?_⟩
    have added : asked ∪ [a].toFinset = insert a asked := by
      rw [List.toFinset_cons, List.toFinset_nil, Finset.union_insert, Finset.union_empty]
    exact added ▸ h.remember a
  | compare a b =>
    refine ⟨(c.remember a).remember b,
      (gives_compare h.faithful a b).bind (Watched.returns_pure _), ?_⟩
    have added : asked ∪ [a, b].toFinset = insert b (insert a asked) := by
      rw [List.toFinset_cons, List.toFinset_cons, List.toFinset_nil, Finset.union_insert,
        Finset.union_insert, Finset.union_empty, Finset.insert_comm]
    exact added ▸ (h.remember a).remember b

/-- One question after the other. -/
theorem Remembers.gives_putAll (h : c.Remembers d asked) (qs : List Question) :
    ∃ c', (Question.putAll c qs).Gives (qs.map (Question.answer d), c') ∧
      c'.Remembers d (asked ∪ Question.allSubjects qs) := by
  induction qs generalizing c asked with
  | nil => exact ⟨c, Watched.returns_pure _, (Finset.union_empty asked).symm ▸ h⟩
  | cons q qs ih =>
    obtain ⟨c₁, first, remembers₁⟩ := h.gives_put q
    obtain ⟨c₂, rest, remembers₂⟩ := ih remembers₁
    refine ⟨c₂, first.bind (rest.bind (Watched.returns_pure _)), ?_⟩
    rw [Finset.union_assoc] at remembers₂
    rwa [Question.allSubjects, List.flatMap_cons, List.toFinset_append]

/-- What is remembered stays remembered. -/
theorem Remembers.known_subset {c' : DistanceComparator} {asked' : Finset Assignment}
    (h : c.Remembers d asked) (h' : c'.Remembers d asked') (sub : asked ⊆ asked') :
    c.known.toList ⊆ c'.known.toList := by
  rintro ⟨a, n⟩ mem
  rw [Std.ExtTreeMap.mem_toList_iff_getElem?_eq_some, h.known_iff] at mem
  rw [Std.ExtTreeMap.mem_toList_iff_getElem?_eq_some, h'.known_iff]
  exact ⟨sub mem.1, mem.2⟩

/-- The comparison by which the comparator answers as it stands, under a signal. -/
def answering (c : DistanceComparator) (s : Signal) : Comparison := fun a b =>
  ((c.compare a b).run s).1.1

theorem Remembers.answering_eq (h : c.Remembers d asked) (s : Signal) :
    c.answering s = compareOn d := by
  funext a b
  rw [answering, (gives_compare h.faithful a b).run_eq, h.trueDistance_eq]
  rfl

/-- **Remembered distances do not show.** Whatever a comparator has been asked before, and whatever
the signals do, it answers each question as computed afresh from the metric. At any time it knows
just the assignments that it has been asked about, each with its true distance, and has applied its
metric once for each of them; what it knows is never lost or changed. So it always compares by the
same total preorder, in which assignments tie if they are equally far away. -/
theorem answers_as_computed (k : Belief) (metric : Metric) (alarm : Alarm)
    (before after : List Question) (s s' : Signal) :
    ∃ c c' : DistanceComparator,
      ((Question.putAll (new k metric alarm) before).run s).1 =
        (before.map (Question.answer (metric.distanceFrom k)), c) ∧
      ((Question.putAll c after).run s').1 =
        (after.map (Question.answer (metric.distanceFrom k)), c') ∧
      c.Remembers (metric.distanceFrom k) (Question.allSubjects before) ∧
      c'.Remembers (metric.distanceFrom k) (Question.allSubjects (before ++ after)) ∧
      c.known.toList ⊆ c'.known.toList ∧
      ∀ s'', c.answering s'' = compareOn (metric.distanceFrom k) ∧
        Std.TransCmp (c.answering s'') ∧
        ∀ a b, c.answering s'' a b = .eq ↔ metric.distanceFrom k a = metric.distanceFrom k b := by
  obtain ⟨c, first, remembers⟩ := (remembers_new k metric alarm).gives_putAll before
  obtain ⟨c', second, remembers'⟩ := remembers.gives_putAll after
  rw [Finset.empty_union] at remembers remembers'
  rw [← Question.allSubjects_append] at remembers'
  refine ⟨c, c', first.run_eq s, second.run_eq s', remembers, remembers',
    remembers.known_subset remembers' ?_, fun s'' => ?_⟩
  · rw [Question.allSubjects_append]
    exact Finset.subset_union_left
  · rw [remembers.answering_eq s'']
    exact ⟨rfl, inferInstance, fun a b => Std.LawfulEqOrd.compare_eq_iff_eq⟩

end DistanceComparator

/-- Three questions about two assignments take two applications of the metric. -/
example :
    let (answers, c) := Signal.unwatched (Question.putAll (.new {.var "p"} .hamming)
      [.distance (.ofList [("p", false)]),
        .compare (.ofList [("p", false)]) (.ofList [("p", true)]),
        .distance (.ofList [("p", false)])])
    answers = [.distance 1, .order .gt, .distance 1] ∧ c.applications = 2 := by
  decide +kernel

end BeliefRevision
