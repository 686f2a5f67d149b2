import BeliefRevision.Proofs.Building

/-!
# Canonical formulas

A formula is canonical if every junction in it has at least two operands, none of which is the same
junction again (`Formula.Canonical`). These are the formulas that can be built: what is built from
canonical formulas is canonical, whatever gets spliced or left out (`canonical_apply`,
`canonical_join?`), and every canonical formula comes out of `Formula.apply` (`apply_operands`).

No canonical formula vanishes when it is joined with others (`Canonical.parts_ne_nil`). A belief
state with a member that does not vanish stands for the conjunction of its members
(`Belief.holds_formula_iff`) and, if there is one canonical member only, for that member itself
(`Belief.formula_singleton`).
-/

namespace BeliefRevision

namespace Formula

/-- Every junction in the formula has at least two operands, none of which is the same junction. -/
inductive Canonical : Formula → Prop where
  | var (v : Variable) : Canonical (var v)
  | top : Canonical top
  | bot : Canonical bot
  | not {p : Formula} (operand : Canonical p) : Canonical (not p)
  | join {j : Junction} {ps : List Formula} (many : 2 ≤ ps.length)
      (flat : ∀ p ∈ ps, p.connective? ≠ some (.junction j)) (operands : ∀ p ∈ ps, Canonical p) :
      Canonical (join j ps)
  | binary {b : Binary} {p q : Formula} (left : Canonical p) (right : Canonical q) :
      Canonical (binary b p q)

variable {j : Junction} {p q d : Formula} {ps : List Formula}

/-! ## Junctions -/

theorem parts_eq_singleton (h : p.connective? ≠ some (.junction j)) : parts j p = [p] := by
  cases p with
  | join i ps =>
    have other : i ≠ j := fun same => h (congrArg (some ∘ Connective.junction) same)
    rw [parts, if_neg other]
  | _ => rfl

theorem Canonical.of_mem_parts (h : p.Canonical) (hq : q ∈ parts j p) :
    q.Canonical ∧ q.connective? ≠ some (.junction j) := by
  by_cases same : p.connective? = some (.junction j)
  · cases h with
    | join _ flat operands =>
      cases same
      rw [parts, if_pos rfl] at hq
      exact ⟨operands q hq, flat q hq⟩
    | _ => cases same
  · rw [parts_eq_singleton same, List.mem_singleton] at hq
    exact hq ▸ ⟨h, same⟩

theorem Canonical.parts_ne_nil (h : p.Canonical) : parts j p ≠ [] := by
  by_cases same : p.connective? = some (.junction j)
  · cases h with
    | join many _ _ =>
      cases same
      rw [parts, if_pos rfl]
      rintro rfl
      cases many
    | _ => cases same
  · rw [parts_eq_singleton same]
    exact List.cons_ne_nil p []

theorem canonical_of_mem_spliced (h : ∀ p ∈ ps, p.Canonical) (hq : q ∈ ps.flatMap (parts j)) :
    q.Canonical ∧ q.connective? ≠ some (.junction j) := by
  obtain ⟨p, hp, hq⟩ := List.mem_flatMap.mp hq
  exact (h p hp).of_mem_parts hq

/-- **A junction of canonical formulas is canonical.** -/
theorem canonical_join? (h : ∀ p ∈ ps, p.Canonical) (hq : join? j ps = some q) : q.Canonical := by
  have spliced : ∀ r ∈ ps.flatMap (parts j), r.Canonical ∧ r.connective? ≠ some (.junction j) :=
    fun r hr => canonical_of_mem_spliced h hr
  unfold join? at hq
  rcases hparts : ps.flatMap (parts j) with _ | ⟨r, _ | ⟨r', rs⟩⟩ <;>
    rw [hparts] at hq spliced <;> cases hq
  · exact (spliced q List.mem_cons_self).1
  · have many : 2 ≤ (r :: r' :: rs).length := Nat.le_add_left 2 rs.length
    exact .join many (fun p hp => (spliced p hp).2) fun p hp => (spliced p hp).1

theorem canonical_getD_join? (hd : d.Canonical) (h : ∀ p ∈ ps, p.Canonical) :
    ((join? j ps).getD d).Canonical := by
  cases hq : join? j ps with
  | none => exact hd
  | some q => exact canonical_join? h hq

/-- A junction vanishes if no operand contributes to it. -/
theorem join?_eq_none_iff : join? j ps = none ↔ ∀ p ∈ ps, parts j p = [] := by
  rw [← List.flatMap_eq_nil_iff, join?]
  rcases ps.flatMap (parts j) with _ | ⟨r, _ | ⟨r', rs⟩⟩ <;> simp

theorem join?_singleton (h : p.Canonical) (j : Junction) : join? j [p] = some p := by
  unfold join?
  rw [List.flatMap_singleton]
  by_cases same : p.connective? = some (.junction j)
  · cases h with
    | @join i ps many _ _ =>
      cases same
      rw [parts, if_pos rfl]
      rcases ps with _ | ⟨r, _ | ⟨r', rs⟩⟩
      · simp at many
      · simp at many
      · rfl
    | _ => cases same
  · rw [parts_eq_singleton same]

/-! ## What is built -/

/-- Applying a connective to canonical operands gives a canonical formula. -/
theorem canonical_apply {c : Connective} (h : ∀ p ∈ ps, p.Canonical) (hq : apply c ps = .ok q) :
    q.Canonical := by
  unfold apply at hq
  split at hq
  · split at hq
    · next hp =>
      cases hq
      exact canonical_join? h hp
    · cases hq
  · cases hq
    exact .not (h _ List.mem_cons_self)
  · cases hq
    exact .binary (h _ List.mem_cons_self) (h _ (List.mem_cons_of_mem _ List.mem_cons_self))
  · cases hq

/-- **Every canonical formula can be built**: it is what its connective makes of its operands. -/
theorem Canonical.apply_operands {c : Connective} (h : p.Canonical) (hc : p.connective? = some c) :
    (∀ q ∈ p.operands, q.Canonical) ∧ apply c p.operands = .ok p := by
  cases h with
  | not operand =>
    cases hc
    exact ⟨List.forall_mem_singleton.mpr operand, rfl⟩
  | @join j ps many flat operands =>
    cases hc
    have unspliced : ps.flatMap (parts j) = ps := by
      rw [List.flatMap_congr fun p hp => parts_eq_singleton (flat p hp), List.flatMap_singleton']
    refine ⟨operands, ?_⟩
    simp only [apply, join?, Formula.operands, unspliced]
    rcases ps with _ | ⟨p, _ | ⟨p', ps⟩⟩
    · simp at many
    · simp at many
    · rfl
  | binary left right =>
    cases hc
    exact ⟨by simpa [Formula.operands] using ⟨left, right⟩, rfl⟩
  | _ => cases hc

theorem Canonical.operand (h : p.Canonical) (hq : q ∈ p.operands) : q.Canonical := by
  cases hc : p.connective? with
  | some c => exact (h.apply_operands hc).1 q hq
  | none => cases p <;> cases hc <;> cases hq

/-- A canonical formula is its outermost connective and its operands. -/
theorem Canonical.eq_of_operands_eq {c : Connective} (hp : p.Canonical) (hq : q.Canonical)
    (hc : p.connective? = some c) (same : q.connective? = some c)
    (operands : p.operands = q.operands) : p = q := by
  have built := (hp.apply_operands hc).2
  rw [operands, (hq.apply_operands same).2] at built
  exact (Except.ok.inj built).symm

theorem canonical_disjunction (h : ∀ p ∈ ps, p.Canonical) : (disjunction ps).Canonical :=
  canonical_getD_join? .bot h

theorem canonical_and (hp : p.Canonical) (hq : q.Canonical) : (p.and q).Canonical :=
  canonical_getD_join? .top (List.forall_mem_cons.mpr ⟨hp, List.forall_mem_singleton.mpr hq⟩)

theorem canonical_or (hp : p.Canonical) (hq : q.Canonical) : (p.or q).Canonical :=
  canonical_disjunction (List.forall_mem_cons.mpr ⟨hp, List.forall_mem_singleton.mpr hq⟩)

end Formula

namespace Assignment

theorem canonical_toFormula (a : Assignment) : a.toFormula.Canonical := by
  refine Formula.canonical_getD_join? .top fun p hp => ?_
  obtain ⟨⟨v, x⟩, -, rfl⟩ := List.mem_map.mp hp
  cases x with
  | true => exact .var v
  | false => exact .not (.var v)

theorem canonical_ofAssignments (as : List Assignment) : (Formula.ofAssignments as).Canonical := by
  refine Formula.canonical_disjunction fun p hp => ?_
  obtain ⟨a, -, rfl⟩ := List.mem_map.mp hp
  exact a.canonical_toFormula

end Assignment

/-! ## Belief states -/

namespace Belief

variable {k : Belief} {p : Formula} {f : Valuation}

theorem mem_occurrences {v : Variable} : v ∈ k.occurrences ↔ ∃ p ∈ k, v ∈ p.occurrences := by
  unfold occurrences
  simp only [List.mem_flatMap, Std.ExtTreeSet.mem_toList, Formula.mem_vocabulary]

theorem mem_occurrences_of_formula {v : Variable} (h : v ∈ k.formula.occurrences) :
    v ∈ k.occurrences := by
  rw [formula, Formula.conjunction?, Formula.mem_occurrences_join? rfl] at h
  simpa [mem_occurrences] using h

/-- **A belief state stands for the conjunction of its members**, if any of them contributes to
it. -/
theorem holds_formula_iff : k.formula.holds f = true ↔
    (∃ p ∈ k, Formula.parts .and p ≠ []) ∧ ∀ p ∈ k, p.holds f = true := by
  by_cases contributes : ∃ p ∈ k, Formula.parts .and p ≠ []
  · have joined : Formula.join? .and k.toList ≠ none := by
      rw [Ne, Formula.join?_eq_none_iff]
      simpa using contributes
    obtain ⟨q, hq⟩ := Option.ne_none_iff_exists'.mp joined
    have conjunction : ((Formula.conjunction? k.toList).getD .top).holds f = true ↔
        ∀ p ∈ k.toList, p.holds f = true := Formula.holds_conjunction?
    rw [Formula.conjunction?, hq] at conjunction
    rw [formula, Formula.conjunction?, hq, and_iff_right contributes]
    simpa using conjunction
  · have vanishes : Formula.join? .and k.toList = none :=
      Formula.join?_eq_none_iff.mpr (by simpa using contributes)
    rw [formula, Formula.conjunction?, vanishes]
    exact iff_of_false Bool.false_ne_true fun h => contributes h.1

/-- Beliefs that can be true together add to the conjunction, whatever they are joined with. -/
theorem holds_formula_union {l : Belief} (hl : ∃ g, l.formula.holds g = true) :
    (k ∪ l).formula.holds f = true ↔ (∀ p ∈ k, p.holds f = true) ∧ l.formula.holds f = true := by
  obtain ⟨g, hg⟩ := hl
  have some : ∃ p ∈ l, Formula.parts .and p ≠ [] := (holds_formula_iff.mp hg).1
  have joint : ∃ p ∈ k ∪ l, Formula.parts .and p ≠ [] :=
    some.imp fun p h => ⟨Std.ExtTreeSet.mem_union_iff.mpr (Or.inr h.1), h.2⟩
  rw [holds_formula_iff, and_iff_right joint, holds_formula_iff, and_iff_right some]
  simp only [Std.ExtTreeSet.mem_union_iff, or_imp, forall_and]

theorem toList_singleton (p : Formula) : ({p} : Belief).toList = [p] := by
  refine eq_of_ordered Std.ExtTreeSet.ordered_toList (List.pairwise_singleton _ p) fun q => ?_
  rw [Std.ExtTreeSet.mem_toList, Std.ExtTreeSet.singleton_eq_insert, Std.ExtTreeSet.mem_insert,
    Std.LawfulEqOrd.compare_eq_iff_eq, or_iff_left Std.ExtTreeSet.not_mem_empty,
    List.mem_singleton, eq_comm]

theorem formula_singleton (h : p.Canonical) : formula {p} = p := by
  rw [formula, Formula.conjunction?, toList_singleton, Formula.join?_singleton h, Option.getD_some]

end Belief

end BeliefRevision
