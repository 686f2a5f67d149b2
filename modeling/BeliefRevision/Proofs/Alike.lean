import BeliefRevision.Proofs.Levels
import BeliefRevision.Proofs.Rounds

/-!
# Searches that only differ in order

Two widening searches are alike if every agent of either has a counterpart in the other one, with
classes that have the same members, and both have found out the same (`Pursuit.Alike`). Agents may
stand in any order and any number of times. As a round can be told without an order, alike searches
stay alike from round to round (`Alike.round`, `Alike.assess`), and they stop together, since a
round fails to take place in both or in neither (`Alike.round_eq_none_iff`).

**`Pursuit.Alike.outcome_eq`** carries this to the end of the run: both end with the very same
announcement, or both with none.
-/

namespace BeliefRevision

/-! ## Agents -/

namespace Prospect

variable {p p' : Prospect} {a : Assignment}

/-- The same agent, solved in both cases or in neither, with classes that have the same members. -/
structure Alike (p p' : Prospect) : Prop where
  agent : p.agent = p'.agent
  solved : p.solved = p'.solved
  classes : List.Forall₂ (fun cls cls' => ∀ a, a ∈ cls ↔ a ∈ cls') p.classes p'.classes

theorem Alike.symm (h : p.Alike p') : p'.Alike p :=
  ⟨h.agent.symm, h.solved.symm, h.classes.flip.imp fun _ _ same a => (same a).symm⟩

theorem Alike.takesIn_iff (h : p.Alike p') : p.TakesIn a ↔ p'.TakesIn a := by
  unfold TakesIn
  rw [h.solved]
  refine and_congr_right fun _ => ?_
  have classes := h.classes
  generalize p.classes = own, p'.classes = own' at classes
  cases classes with
  | nil => rfl
  | cons same _ => simpa using same a

theorem Alike.advance (h : p.Alike p') : p.advance.Alike p'.advance := by
  unfold Prospect.advance
  rw [h.solved]
  split
  · exact h
  · refine ⟨h.agent, rfl, ?_⟩
    simpa only [List.drop_one] using List.forall₂_drop 1 h.classes

theorem Alike.classes_eq_nil_iff (h : p.Alike p') : p.classes = [] ↔ p'.classes = [] := by
  rw [← List.length_eq_zero_iff, h.classes.length_eq, List.length_eq_zero_iff]

theorem Alike.judgeable (h : p.Alike p') (judgeable : p.Judgeable) : p'.Judgeable := by
  have both := (List.forall₂_and_left _ _).mpr ⟨judgeable, h.classes⟩
  refine forall_of_forall₂ both fun cls cls' ⟨valued, same⟩ a ha => ?_
  rw [← h.agent]
  exact valued a ((same a).mpr ha)

end Prospect

/-! ## Searches -/

namespace Pursuit

variable {s s' t t' : Pursuit} {P : Prospect → Prop}

/-- Every agent of either search has a counterpart in the other one, and the searches have found out
the same. -/
structure Alike (s s' : Pursuit) : Prop where
  announcement : s.announcement = s'.announcement
  verdicts : s.verdicts = s'.verdicts
  forth : ∀ p ∈ s.prospects, ∃ p' ∈ s'.prospects, p.Alike p'
  back : ∀ p' ∈ s'.prospects, ∃ p ∈ s.prospects, p.Alike p'

/-- What holds of an agent of one search holds of its counterpart in the other one. -/
theorem Alike.exists_iff (h : s.Alike s') (respects : ∀ p p', p.Alike p' → (P p ↔ P p')) :
    (∃ p ∈ s.prospects, P p) ↔ ∃ p' ∈ s'.prospects, P p' := by
  constructor
  · rintro ⟨p, hp, holds⟩
    obtain ⟨p', hp', alike⟩ := h.forth p hp
    exact ⟨p', hp', (respects p p' alike).mp holds⟩
  · rintro ⟨p', hp', holds⟩
    obtain ⟨p, hp, alike⟩ := h.back p' hp'
    exact ⟨p, hp, (respects p p' alike).mpr holds⟩

theorem Alike.judgeable (h : s.Alike s') (judgeable : ∀ p ∈ s.prospects, p.Judgeable) :
    ∀ p ∈ s'.prospects, p.Judgeable := by
  intro p' hp'
  obtain ⟨p, hp, alike⟩ := h.back p' hp'
  exact alike.judgeable (judgeable p hp)

theorem isDone_iff : s.isDone = true ↔ ¬∃ p ∈ s.prospects, p.solved = false := by
  simp [isDone]

theorem Alike.isDone_iff (h : s.Alike s') : s.isDone = true ↔ s'.isDone = true := by
  rw [Pursuit.isDone_iff, Pursuit.isDone_iff, h.exists_iff fun p p' alike => by rw [alike.solved]]

/-- Alike searches lack a next round together. -/
theorem Alike.round_eq_none_iff (h : s.Alike s') (judgeable : ∀ p ∈ s.prospects, p.Judgeable) :
    s.round = .ok none ↔ s'.round = .ok none := by
  rw [Pursuit.round_eq_none_iff judgeable, Pursuit.round_eq_none_iff (h.judgeable judgeable)]
  refine h.exists_iff fun p p' alike => ?_
  rw [alike.solved, alike.classes_eq_nil_iff]

/-- Searches stay alike if their agents are changed alike, and they find out the same. -/
theorem Alike.map (h : s.Alike s') {f f' : Prospect → Prospect}
    (respects : ∀ p p', p.Alike p' → (f p).Alike (f' p'))
    (announcement : t.announcement = t'.announcement) (verdicts : t.verdicts = t'.verdicts)
    (ht : t.prospects = s.prospects.map f) (ht' : t'.prospects = s'.prospects.map f') :
    t.Alike t' := by
  refine ⟨announcement, verdicts, ?_, ?_⟩ <;> rw [ht, ht', List.forall_mem_map]
  · intro p hp
    obtain ⟨p', hp', alike⟩ := h.forth p hp
    exact ⟨f' p', List.mem_map_of_mem hp', respects p p' alike⟩
  · intro p' hp'
    obtain ⟨p, hp, alike⟩ := h.back p' hp'
    exact ⟨f p, List.mem_map_of_mem hp, respects p p' alike⟩

/-- **A round keeps searches alike.** -/
theorem Alike.round (h : s.Alike s') (ht : s.round = .ok (some t))
    (ht' : s'.round = .ok (some t')) : t.Alike t' := by
  obtain ⟨widens, announced⟩ := widens_of_round ht
  obtain ⟨widens', announced'⟩ := widens_of_round ht'
  have verdicts : t.verdicts = t'.verdicts := by
    refine Verdicts.ext_given fun x a => ?_
    rw [widens.mem_given, widens'.mem_given, h.verdicts]
    refine or_congr_right (h.exists_iff fun p p' alike => ?_)
    rw [alike.takesIn_iff, alike.agent]
  have announcement : t.announcement = t'.announcement := by rw [announced, announced', verdicts]
  exact h.map (fun _ _ alike => alike.advance) announcement verdicts widens.map_advance
    widens'.map_advance

theorem Alike.assess (h : s.Alike s') : s.assess.Alike s'.assess := by
  refine h.map ?_ h.announcement h.verdicts (prospects_assess s) (prospects_assess s')
  intro p p' alike
  exact ⟨alike.agent, by rw [alike.agent, h.announcement], alike.classes⟩

/-- **Alike searches end alike.** -/
theorem Alike.outcome_eq (h : s.Alike s') (judgeable : ∀ p ∈ s.prospects, p.Judgeable) :
    s.outcome = s'.outcome := by
  fun_induction outcome s generalizing s' with
  | case1 s done => rw [outcome_of_isDone (h.isDone_iff.mp done), h.announcement]
  | case2 s _ e hround =>
    obtain ⟨next, ok⟩ := round_eq_ok judgeable
    cases ok.symm.trans hround
  | case3 s unsolved hround =>
    have none := (h.round_eq_none_iff judgeable).mp hround
    rw [outcome_of_round_eq_none (h.isDone_iff.not.mp unsolved) none]
  | case4 s unsolved t hround ih =>
    obtain ⟨_ | t', hround'⟩ := round_eq_ok (h.judgeable judgeable)
    · cases ((h.round_eq_none_iff judgeable).mpr hround').symm.trans hround
    · rw [outcome_of_round_eq_some (h.isDone_iff.not.mp unsolved) hround']
      exact ih (h.round hround hround').assess (judgeable_assess judgeable hround)

end Pursuit

end BeliefRevision
