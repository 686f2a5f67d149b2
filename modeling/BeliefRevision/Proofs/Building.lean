import BeliefRevision.Belief.Revision
import BeliefRevision.Proofs.Truth

/-!
# The meaning of what is built

Formulas that are put together by the functions of `Formula.Building` and `Assignment.Basic` are
true where they should be, and mention the variables of what they are made of, however their
operands are spliced. Both junctions are handled at once (`holds_join?`, `mem_occurrences_join?`).

* `holds_toFormula`, `holds_ofAssignments`: assignments written as formulas are true under their
  completions.
* `holds_closure`, `mem_occurrences_closure`: a closure is true and mentions the given variables.
-/

namespace BeliefRevision

theorem Junction.value_eq_absorbing_iff {j : Junction} {bs : List Bool} :
    j.value bs = j.absorbing ↔ j.absorbing ∈ bs := by
  unfold value
  split <;> simp_all

namespace Formula

variable {j : Junction} {p q d : Formula} {ps : List Formula} {f : Valuation} {v : Variable}

/-! ## Junctions -/

theorem exists_mem_parts_iff :
    (∃ q ∈ parts j p, q.holds f = j.absorbing) ↔ p.holds f = j.absorbing := by
  cases p with
  | join i ps =>
    by_cases h : i = j
    · subst h
      rw [holds, holdsAll_eq_map, Junction.value_eq_absorbing_iff, parts, if_pos rfl, List.mem_map]
    · simp [parts, h]
  | _ => simp [parts]

theorem mem_occurrences_parts : (∃ q ∈ parts j p, v ∈ q.occurrences) ↔ v ∈ p.occurrences := by
  cases p with
  | join i ps =>
    by_cases h : i = j
    · rw [mem_occurrences_join, parts, if_pos h]
    · simp [parts, h]
  | _ => simp [parts]

/-- What stands for the junction of no formula is true where that junction would be. -/
theorem holds_join? (hd : d.holds f = !j.absorbing) :
    ((join? j ps).getD d).holds f = j.value (ps.map (holds f)) := by
  have joined : ((join? j ps).getD d).holds f = j.value ((ps.flatMap (parts j)).map (holds f)) := by
    unfold join?
    rcases ps.flatMap (parts j) with _ | ⟨q, _ | ⟨q', qs⟩⟩
    · simpa [Junction.value] using hd
    · cases j <;> cases h : q.holds f <;> simp [h, Junction.value, Junction.absorbing]
    · rw [Option.getD_some, holds, holdsAll_eq_map]
  have same : j.value ((ps.flatMap (parts j)).map (holds f)) = j.absorbing ↔
      j.value (ps.map (holds f)) = j.absorbing := by
    simp only [Junction.value_eq_absorbing_iff, List.mem_map, List.mem_flatMap]
    constructor
    · rintro ⟨q, ⟨p, hp, hq⟩, absorbs⟩
      exact ⟨p, hp, exists_mem_parts_iff.mp ⟨q, hq, absorbs⟩⟩
    · rintro ⟨p, hp, absorbs⟩
      obtain ⟨q, hq, absorbs⟩ := exists_mem_parts_iff.mpr absorbs
      exact ⟨q, ⟨p, hp, hq⟩, absorbs⟩
  rw [joined]
  revert same
  cases j.value ((ps.flatMap (parts j)).map (holds f)) <;> cases j.value (ps.map (holds f)) <;>
    cases j.absorbing <;> simp

theorem mem_occurrences_join? (hd : d.occurrences = []) :
    v ∈ ((join? j ps).getD d).occurrences ↔ ∃ p ∈ ps, v ∈ p.occurrences := by
  have joined : v ∈ ((join? j ps).getD d).occurrences ↔
      ∃ q ∈ ps.flatMap (parts j), v ∈ q.occurrences := by
    unfold join?
    rcases ps.flatMap (parts j) with _ | ⟨q, _ | ⟨q', qs⟩⟩
    · simp [hd]
    · simp
    · rw [Option.getD_some, mem_occurrences_join]
  rw [joined]
  constructor
  · rintro ⟨q, hq, hv⟩
    obtain ⟨p, hp, hq⟩ := List.mem_flatMap.mp hq
    exact ⟨p, hp, mem_occurrences_parts.mp ⟨q, hq, hv⟩⟩
  · rintro ⟨p, hp, hv⟩
    obtain ⟨q, hq, hv⟩ := mem_occurrences_parts.mpr hv
    exact ⟨q, List.mem_flatMap.mpr ⟨p, hp, hq⟩, hv⟩

theorem holds_conjunction? :
    ((conjunction? ps).getD top).holds f = true ↔ ∀ p ∈ ps, p.holds f = true := by
  rw [conjunction?, holds_join? rfl]
  simp [Junction.value, Junction.absorbing]

theorem holds_disjunction : (disjunction ps).holds f = true ↔ ∃ p ∈ ps, p.holds f = true := by
  rw [disjunction, disjunction?, holds_join? rfl]
  simp [Junction.value, Junction.absorbing]

theorem mem_occurrences_disjunction :
    v ∈ (disjunction ps).occurrences ↔ ∃ p ∈ ps, v ∈ p.occurrences := mem_occurrences_join? rfl

theorem holds_and : (p.and q).holds f = true ↔ p.holds f = true ∧ q.holds f = true := by
  rw [and, holds_conjunction?]
  simp

theorem mem_occurrences_and :
    v ∈ (p.and q).occurrences ↔ v ∈ p.occurrences ∨ v ∈ q.occurrences := by
  rw [and, conjunction?, mem_occurrences_join? rfl]
  simp

theorem holds_or : (p.or q).holds f = true ↔ p.holds f = true ∨ q.holds f = true := by
  rw [or, holds_disjunction]
  simp

theorem mem_occurrences_or : v ∈ (p.or q).occurrences ↔ v ∈ p.occurrences ∨ v ∈ q.occurrences := by
  rw [or, mem_occurrences_disjunction]
  simp

theorem holds_not : (not p).holds f = true ↔ ¬p.holds f = true := by
  rw [holds, Bool.not_eq_true', Bool.not_eq_true]

/-! ## Closures -/

theorem holds_closure (vs : List Variable) : (closure vs).holds f = true := by
  rw [closure, holds_conjunction?]
  intro p hp
  obtain ⟨v, -, rfl⟩ := List.mem_map.mp hp
  rw [holds_or, holds_not]
  exact Classical.em _

theorem mem_occurrences_closure {vs : List Variable} : v ∈ (closure vs).occurrences ↔ v ∈ vs := by
  rw [closure, conjunction?, mem_occurrences_join? rfl]
  simp [mem_occurrences_or, occurrences]

end Formula

/-! ## Assignments as formulas -/

namespace Assignment

variable {a : Assignment} {as : List Assignment} {f : Valuation} {v : Variable}

theorem holds_literal {entry : Variable × Bool} :
    (literal entry).holds f = true ↔ f entry.1 = entry.2 := by
  obtain ⟨v, x⟩ := entry
  cases x <;> simp [literal, Formula.holds]

theorem occurrences_literal {entry : Variable × Bool} :
    (literal entry).occurrences = [entry.1] := by
  obtain ⟨v, x⟩ := entry
  cases x <;> rfl

/-- **An assignment as a formula is true under its completions.** -/
theorem holds_toFormula : a.toFormula.holds f = true ↔ a.CompletesTo f := by
  rw [toFormula, Formula.holds_conjunction?]
  simp only [List.forall_mem_map, holds_literal, Prod.forall,
    Std.ExtTreeMap.mem_toList_iff_getElem?_eq_some]
  rfl

theorem mem_occurrences_toFormula : v ∈ a.toFormula.occurrences ↔ v ∈ a := by
  rw [toFormula, Formula.conjunction?, Formula.mem_occurrences_join? rfl, mem_iff_exists]
  constructor
  · rintro ⟨p, hp, hv⟩
    obtain ⟨⟨w, x⟩, hw, rfl⟩ := List.mem_map.mp hp
    rw [occurrences_literal, List.mem_singleton] at hv
    rw [hv]
    exact ⟨x, Std.ExtTreeMap.mem_toList_iff_getElem?_eq_some.mp hw⟩
  · rintro ⟨x, hx⟩
    refine ⟨literal (v, x), List.mem_map_of_mem ?_, ?_⟩
    · exact Std.ExtTreeMap.mem_toList_iff_getElem?_eq_some.mpr hx
    · rw [occurrences_literal]
      exact List.mem_singleton.mpr rfl

theorem holds_ofAssignments :
    (Formula.ofAssignments as).holds f = true ↔ ∃ a ∈ as, a.CompletesTo f := by
  rw [Formula.ofAssignments, Formula.holds_disjunction]
  simp only [List.mem_map, exists_exists_and_eq_and, holds_toFormula]

theorem mem_occurrences_ofAssignments :
    v ∈ (Formula.ofAssignments as).occurrences ↔ ∃ a ∈ as, v ∈ a := by
  rw [Formula.ofAssignments, Formula.mem_occurrences_disjunction]
  simp only [List.mem_map, exists_exists_and_eq_and, mem_occurrences_toFormula]

end Assignment

end BeliefRevision
