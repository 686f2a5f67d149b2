import BeliefRevision.Proofs.Cancellation

/-!
# The two widening searches agree

For agents that all judge by distance, a widening search may file assignments under their distances
or sort them by comparison. Either way the classes are the levels of the same comparison, however
much the comparators remember from earlier questions, so all rounds are the same and the two
searches end with the same announcement or both with none.

* `comparators_eq_map`: both searches consult the same comparators.
* `classesOf_eq`: both searches divide the assignments into the same classes.
* **`widenings_agree`**: both searches find the same.
-/

namespace BeliefRevision

/-! ## Comparators that have been asked before -/

namespace DistanceComparator

/-- The comparator after it has been asked for the distances of the listed assignments. -/
def asked (c : DistanceComparator) : List Assignment → Watched DistanceComparator
  | [] => pure c
  | a :: as => do
    let (_, c) ← c.distance a
    c.asked as

variable {c c' : DistanceComparator}

theorem gives_asked (h : c.Faithful) (as : List Assignment) :
    ∃ c', (c.asked as).Gives c' ∧ c'.Faithful ∧ c'.trueDistance = c.trueDistance := by
  induction as generalizing c with
  | nil => exact ⟨c, Watched.returns_pure c, h, rfl⟩
  | cons a as ih =>
    obtain ⟨c', rest, faithful, same⟩ := ih (h.remember a)
    exact ⟨c', (gives_distance h a).bind rest, faithful, same.trans (trueDistance_remember c a)⟩

theorem comparison_classes_eq (c : DistanceComparator) (as : List Assignment) :
    (Comparator.byDistance c).comparison.classes as = Buckets.classes c.trueDistance as := by
  have trans : Std.TransCmp (Comparator.byDistance c).comparison :=
    inferInstanceAs (Std.TransCmp (compareOn c.trueDistance))
  exact (Comparison.levels_classes as).unique (Buckets.levels_classes c.trueDistance as)

/-- **What a comparator remembers does not matter for the classes**, nor which way they are made. -/
theorem classes_eq (faithful : c.Faithful) (faithful' : c'.Faithful)
    (same : c'.trueDistance = c.trueDistance) (as : List Assignment) (s s' : Signal) :
    ((c.classes as).run s).1 = (((Comparator.byDistance c').classes as).run s').1 := by
  have judges : (Comparator.byDistance c').Judges (Comparator.byDistance c').comparison :=
    ⟨faithful', rfl⟩
  rw [(gives_classes faithful as).run_eq, (Comparator.gives_classes judges as).run_eq,
    comparison_classes_eq, same]

end DistanceComparator

/-! ## Comparators of the agents -/

namespace Announcement

variable {agents : List Agent} {search : Widening}

theorem exists_comparators (search : Widening)
    (h : ∀ agent ∈ agents, ∃ c, agent.revision.comparator? agent.initial = some c) :
    ∃ cs, comparators search agents = .ok cs := by
  cases hcs : comparators search agents with
  | ok cs => exact ⟨cs, rfl⟩
  | error e =>
    obtain ⟨⟨agent, i⟩, hagent, failed⟩ := exists_of_mapM_eq_error hcs
    obtain ⟨c, hc⟩ := h agent (List.fst_mem_of_mem_zipIdx hagent)
    simp [hc] at failed

/-- The agents judge by distance. -/
def JudgeByDistance (agents : List Agent) : Prop :=
  ∀ agent ∈ agents, ∃ c, agent.revision.comparator? agent.initial = some (.byDistance c)

theorem exists_distanceComparators (h : JudgeByDistance agents) :
    ∃ cs, distanceComparators agents = .ok cs := by
  obtain ⟨all, hall⟩ := exists_comparators .byDistance fun agent hagent =>
    let ⟨_, hc⟩ := h agent hagent
    ⟨_, hc⟩
  cases hcs : distanceComparators agents with
  | ok cs => exact ⟨cs, rfl⟩
  | error e =>
    rcases bind_eq_error_iff.mp hcs with failed | ⟨all', hall', hcs⟩
    · cases hall.symm.trans failed
    · obtain ⟨⟨c, i⟩, hc, failed⟩ := exists_of_mapM_eq_error hcs
      have judges := (List.forall₂_and_left _ _).mpr ⟨h, comparators_eq_ok hall'⟩
      have known : ∀ c ∈ all', ∃ d, c = .byDistance d := by
        refine forall_of_forall₂ judges ?_
        rintro agent c ⟨⟨d, hd⟩, hc⟩
        exact ⟨d, Option.some.inj (hc.symm.trans hd)⟩
      obtain ⟨d, rfl⟩ := known c (List.fst_mem_of_mem_zipIdx hc)
      cases failed

/-- Both searches consult the same comparators. -/
theorem comparators_eq_map (search : Widening) {cs : List DistanceComparator}
    (h : distanceComparators agents = .ok cs) :
    comparators search agents = .ok (cs.map .byDistance) := by
  have judge := distanceComparators_eq_ok h
  obtain ⟨cs', hcs'⟩ :=
    exists_comparators search (forall_of_forall₂ judge.flip fun _ _ hc => ⟨_, hc⟩)
  have unique : Relator.RightUnique fun (agent : Agent) (c : Comparator) =>
      agent.revision.comparator? agent.initial = some c :=
    fun _ _ _ hc hc' => Option.some.inj (hc.symm.trans hc')
  rw [hcs', List.right_unique_forall₂' unique (comparators_eq_ok hcs')
    (List.forall₂_map_right_iff.mpr judge)]

/-- **Both searches divide the assignments into the same classes**, and do not fail. -/
theorem classesOf_eq (h : JudgeByDistance agents) :
    ∃ classes, classesOf agents .byDistance = .ok classes ∧
      classesOf agents .byOrder = .ok classes := by
  obtain ⟨cs, hcs⟩ := exists_distanceComparators h
  refine ⟨_, bind_eq_ok_iff.mpr ⟨cs, hcs, rfl⟩,
    bind_eq_ok_iff.mpr ⟨_, comparators_eq_map .byOrder hcs, ?_⟩⟩
  rw [List.map_map]
  exact congrArg Except.ok (List.map_congr_left fun c _ => c.comparison_classes_eq _)

end Announcement

/-- **The two widening searches agree.** For agents that judge by distance, whatever their metrics,
both end with the same announcement or both with none. Also, a comparator by distance makes the same
classes of any list in both ways, whatever it has been asked before and whatever the signals do. -/
theorem widenings_agree :
    (∀ agents : List Agent, Announcement.JudgeByDistance agents →
      ∃ found, (Strategy.widening .byDistance).resolve agents = .ok found ∧
        (Strategy.widening .byOrder).resolve agents = .ok found) ∧
    ∀ (k : Belief) (metric : Metric) (alarm : Alarm) (before before' as : List Assignment)
      (s s' : Signal),
      (((Signal.unwatched ((DistanceComparator.new k metric alarm).asked before)).classes as).run
          s).1 =
        (((Comparator.byDistance (Signal.unwatched
          ((DistanceComparator.new k metric alarm).asked before'))).classes as).run s').1 := by
  constructor
  · intro agents h
    obtain ⟨classes, byDistance, byOrder⟩ := Announcement.classesOf_eq h
    obtain ⟨found, ok⟩ := Announcement.widened_eq_ok byDistance
    refine ⟨found, ?_, ?_⟩
    · rw [Strategy.resolve_eq]
      exact ok
    · rw [Strategy.resolve_eq, ← ok]
      unfold Strategy.ending Announcement.widened
      dsimp only
      rw [byDistance, byOrder]
  · intro k metric alarm before before' as s s'
    have start := DistanceComparator.faithful_new k metric alarm
    obtain ⟨c, asked, faithful, same⟩ := DistanceComparator.gives_asked start before
    obtain ⟨c', asked', faithful', same'⟩ := DistanceComparator.gives_asked start before'
    rw [asked.unwatched_eq, asked'.unwatched_eq]
    exact DistanceComparator.classes_eq faithful faithful' (same'.trans same.symm) as s s'

/-- Two agents with different metrics. -/
theorem widenings_agree_two_agents :
    Announcement.JudgeByDistance
      [⟨{.var "p"}, .var "q", .nearest .hamming⟩,
        ⟨{.var "q"}, .not (.var "p"), .nearest (.layered [.var "r"])⟩] ∧
    ∃ found,
      (Strategy.widening .byDistance).resolve
        [⟨{.var "p"}, .var "q", .nearest .hamming⟩,
          ⟨{.var "q"}, .not (.var "p"), .nearest (.layered [.var "r"])⟩] = .ok found ∧
      (Strategy.widening .byOrder).resolve
        [⟨{.var "p"}, .var "q", .nearest .hamming⟩,
          ⟨{.var "q"}, .not (.var "p"), .nearest (.layered [.var "r"])⟩] = .ok found :=
  have judge : Announcement.JudgeByDistance
      [⟨{.var "p"}, .var "q", .nearest .hamming⟩,
        ⟨{.var "q"}, .not (.var "p"), .nearest (.layered [.var "r"])⟩] := by
    simp [Announcement.JudgeByDistance, Revision.comparator?, Preference.comparator,
      Preference.hamming, Preference.layered]
  ⟨judge, widenings_agree.1 _ judge⟩

end BeliefRevision
