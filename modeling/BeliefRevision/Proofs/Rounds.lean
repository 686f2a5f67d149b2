import BeliefRevision.Proofs.Failure

/-!
# What a round takes in

A round of a widening search goes through the agents one after the other, and gathers verdicts on
the way. What it comes to can be said without an order: it takes place if every unsolved agent has a
class left, every unsolved agent moves on by one class, and an assignment has a verdict afterwards
if it had it before or if some agent took it in and its goal gives this verdict.

* `Verdicts.mem_judge`, `Prospect.Widens.mem_given`: the verdicts after a class, and after a round.
* `Prospect.Widens.map_advance`, `Pursuit.round_eq_none_iff`: the agents after a round, and when
  there is none.
* **`Pursuit.Within.exists_verdicts`**: what is announced comes from verdicts on assignments that
  the agents' classes held at the start.
-/

namespace BeliefRevision

/-! ## Verdicts -/

namespace Verdicts

variable {v v' : Verdicts} {goal : Formula} {as : List Assignment} {a b : Assignment} {x y : Bool}

/-- The assignments on which a verdict was given: the accepted or the rejected ones. -/
def given (v : Verdicts) (x : Bool) : Std.ExtTreeSet Assignment :=
  if x then v.accepted else v.rejected

theorem ext_given (h : ∀ x a, a ∈ v.given x ↔ a ∈ v'.given x) : v = v' := by
  obtain ⟨accepted, rejected⟩ := v
  obtain ⟨accepted', rejected'⟩ := v'
  have same : accepted = accepted' := Std.ExtTreeSet.ext_mem (h true)
  have same' : rejected = rejected' := Std.ExtTreeSet.ext_mem (h false)
  rw [same, same']

/-- **The verdicts after a class** are those before, and what the goal says of the class. -/
theorem mem_judge (h : v.judge goal as = .ok v') :
    a ∈ v'.given x ↔ a ∈ v.given x ∨ a ∈ as ∧ goal.evaluate a = .ok x := by
  induction as generalizing v with
  | nil =>
    cases h
    simp
  | cons b as ih =>
    obtain ⟨y, hy, h⟩ := bind_eq_ok_iff.mp h
    have first : (a ∈ v'.given x ↔ (y = x ∧ b = a ∨ a ∈ v.given x) ∨
        a ∈ as ∧ goal.evaluate a = .ok x) := by
      cases y <;> cases x <;> simpa [given, Std.ExtTreeSet.mem_insert] using ih h
    rw [first, List.mem_cons]
    constructor
    · rintro ((⟨rfl, rfl⟩ | old) | ⟨ha, value⟩)
      · exact Or.inr ⟨Or.inl rfl, hy⟩
      · exact Or.inl old
      · exact Or.inr ⟨Or.inr ha, value⟩
    · rintro (old | ⟨rfl | ha, value⟩)
      · exact Or.inl (Or.inr old)
      · exact Or.inl (Or.inl ⟨Except.ok.inj (hy.symm.trans value), rfl⟩)
      · exact Or.inr ⟨ha, value⟩

end Verdicts

/-! ## Agents -/

namespace Prospect

variable {v v' : Verdicts} {p : Prospect} {ps ps' : List Prospect} {a : Assignment} {x : Bool}

/-- The agent is unsolved, and the assignment belongs to its next class. -/
def TakesIn (p : Prospect) (a : Assignment) : Prop :=
  p.solved = false ∧ ∃ next ∈ p.classes.head?, a ∈ next

/-- The agent after a round. -/
def advance (p : Prospect) : Prospect :=
  if p.solved then p else { p with classes := p.classes.tail }

theorem Widens.map_advance (h : Widens v ps v' ps') : ps' = ps.map advance := by
  induction h with
  | done => rfl
  | rest solved _ ih => rw [List.map_cons, advance, if_pos solved, ih]
  | take unsolved left _ _ ih =>
    rw [List.map_cons, advance, unsolved, left, ih]
    rfl

theorem Widens.classes_ne_nil (h : Widens v ps v' ps') :
    ∀ p ∈ ps, p.solved = false → p.classes ≠ [] := by
  induction h with
  | done => exact List.forall_mem_nil _
  | rest solved _ ih =>
    refine List.forall_mem_cons.mpr ⟨fun unsolved => ?_, ih⟩
    cases solved.symm.trans unsolved
  | take _ left _ _ ih =>
    refine List.forall_mem_cons.mpr ⟨fun _ => ?_, ih⟩
    rw [left]
    exact List.cons_ne_nil _ _

theorem exists_of_widen_eq_none (h : widen v ps = .ok none) :
    ∃ p ∈ ps, p.solved = false ∧ p.classes = [] := by
  induction ps generalizing v with
  | nil => cases h
  | cons p ps ih =>
    unfold widen at h
    split at h
    · obtain ⟨_ | _, hw, h⟩ := bind_eq_ok_iff.mp h
      · obtain ⟨q, hq, exhausted⟩ := ih hw
        exact ⟨q, List.mem_cons_of_mem p hq, exhausted⟩
      · cases h
    · next unsolved =>
      split at h
      · next none => exact ⟨p, List.mem_cons_self, Bool.not_eq_true _ ▸ unsolved, none⟩
      · obtain ⟨u, -, h⟩ := bind_eq_ok_iff.mp h
        obtain ⟨_ | _, hw, h⟩ := bind_eq_ok_iff.mp h
        · obtain ⟨q, hq, exhausted⟩ := ih hw
          exact ⟨q, List.mem_cons_of_mem p hq, exhausted⟩
        · cases h

/-- **The verdicts after a round** are those before, and what the goals say of what was taken
in. -/
theorem Widens.mem_given (h : Widens v ps v' ps') :
    a ∈ v'.given x ↔
      a ∈ v.given x ∨ ∃ p ∈ ps, p.TakesIn a ∧ p.agent.goal.evaluate a = .ok x := by
  induction h with
  | done => simp
  | @rest v v' p ps ps' solved _ ih =>
    have idle : ¬p.TakesIn a := fun takes => by cases solved.symm.trans takes.1
    simp [ih, idle]
  | @take v u v' p ps ps' next classes unsolved left judged _ ih =>
    have takes : p.TakesIn a ↔ a ∈ next := by simp [TakesIn, unsolved, left]
    simp [ih, Verdicts.mem_judge judged, takes, or_assoc]

end Prospect

/-! ## Searches -/

namespace Pursuit

variable {s s' : Pursuit} {P : Assignment → Prop} {a : Formula}

/-- **A round fails to take place** if an unsolved agent has nothing left to take in. -/
theorem round_eq_none_iff (h : ∀ p ∈ s.prospects, p.Judgeable) :
    s.round = .ok none ↔ ∃ p ∈ s.prospects, p.solved = false ∧ p.classes = [] := by
  constructor
  · intro none
    obtain ⟨_ | _, hw, none⟩ := bind_eq_ok_iff.mp none
    · exact Prospect.exists_of_widen_eq_none hw
    · cases none
  · rintro ⟨p, hp, unsolved, exhausted⟩
    obtain ⟨_ | next, ok⟩ := round_eq_ok h
    · exact ok
    · exact absurd exhausted ((widens_of_round ok).1.classes_ne_nil p hp unsolved)

theorem outcome_of_isDone (h : s.isDone = true) : s.outcome = .ok (some s.announcement) := by
  rw [outcome, dif_pos h]

theorem outcome_of_round_eq_none (unsolved : ¬s.isDone = true) (h : s.round = .ok none) :
    s.outcome = .ok none := by
  rw [outcome, dif_neg unsolved]
  split <;> simp_all

theorem outcome_of_round_eq_some (unsolved : ¬s.isDone = true) (h : s.round = .ok (some s')) :
    s.outcome = s'.assess.outcome := by
  rw [outcome, dif_neg unsolved]
  split <;> simp_all

/-- The assignments with a verdict, and those that the agents can still take in, have the
property. -/
structure Within (s : Pursuit) (P : Assignment → Prop) : Prop where
  verdicts : ∀ x, ∀ a ∈ s.verdicts.given x, P a
  classes : ∀ p ∈ s.prospects, ∀ cls ∈ p.classes, ∀ a ∈ cls, P a

theorem Within.assess (h : s.Within P) : s.assess.Within P where
  verdicts := h.verdicts
  classes := by
    rw [prospects_assess, List.forall_mem_map]
    exact h.classes

/-- A round takes in nothing but what the classes held. -/
theorem Within.round (h : s.Within P) (hr : s.round = .ok (some s')) : s'.Within P := by
  have widens := (widens_of_round hr).1
  constructor
  · intro x a ha
    rcases widens.mem_given.mp ha with old | ⟨p, hp, ⟨-, next, first, ha⟩, -⟩
    · exact h.verdicts x a old
    · exact h.classes p hp next (List.mem_of_mem_head? first) a ha
  · rw [widens.map_advance, List.forall_mem_map]
    intro p hp cls hcls
    refine h.classes p hp cls ?_
    unfold Prospect.advance at hcls
    split at hcls
    · exact hcls
    · exact List.mem_of_mem_tail hcls

/-- **What is announced comes from verdicts** on assignments that the classes held. -/
theorem Within.exists_verdicts (h : s.Within P)
    (announced : s.isDone = true → s.announcement = s.verdicts.announcement)
    (found : s.outcome = .ok (some a)) :
    ∃ v : Verdicts, (∀ x, ∀ b ∈ v.given x, P b) ∧ a = v.announcement := by
  fun_induction outcome s with
  | case1 s done =>
    cases found
    exact ⟨s.verdicts, h.verdicts, announced done⟩
  | case2 => cases found
  | case3 => cases found
  | case4 s _ s' hr ih =>
    exact ih (h.round hr).assess (fun _ => (widens_of_round hr).2) found

end Pursuit

end BeliefRevision
