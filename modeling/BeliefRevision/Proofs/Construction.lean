import BeliefRevision.Model.NormalForm
import BeliefRevision.Proofs.Cancellation
import BeliefRevision.Proofs.Fewest

/-!
# What can be made is canonical

`Formula.Made` is what can be obtained from variables and constants by all the functions that hand
out formulas: by connectives and junctions, from assignments and models, by trust and revision, and
by the search for announcements. Each of them keeps formulas canonical, so every node of what is
made has the operands that its connective asks for (`Formula.Fits`).

A junction of canonical formulas contributes to a further one what its operands contribute
(`parts_of_join?`), even where only one is left of them. So operands may be joined in groups
(`exists_mapM_join?`), and what comes out evaluates to the junction of all their values.

* `canonical_iff_fits`: a formula is canonical if all its nodes fit.
* `Revision.canonical_revise`, `Announcement.canonical_of_search`: so are revised beliefs and what
  is announced, if what they are made from is.
* **`made_fits_and_regroups`**: what is made fits, and may be joined in any groups.
-/

namespace BeliefRevision

/-! ## Nodes -/

namespace Formula

variable {j : Junction} {p q r : Formula} {ps : List Formula} {pss : List (List Formula)}
  {a : Assignment}

/-- The formula is the second one or stands somewhere in it. -/
inductive IsNodeOf : Formula → Formula → Prop where
  | self (p : Formula) : IsNodeOf p p
  | operand {p q r : Formula} (h : q ∈ p.operands) (below : IsNodeOf r q) : IsNodeOf r p

/-- The outermost connective has as many operands as it takes. Where any number is taken there are
two at least, none with the same connective. -/
def Fits (p : Formula) : Prop :=
  ∀ c ∈ p.connective?, match c.arity with
    | some n => p.operands.length = n
    | none => 2 ≤ p.operands.length ∧ ∀ q ∈ p.operands, q.connective? ≠ some c

theorem Canonical.node (hp : p.Canonical) (h : q.IsNodeOf p) : q.Canonical := by
  induction h with
  | self => exact hp
  | operand h _ ih => exact ih (hp.operand h)

theorem Canonical.fits (h : p.Canonical) : p.Fits := by
  intro c hc
  cases h with
  | not operand =>
    cases hc
    rfl
  | join many flat operands =>
    cases hc
    exact ⟨many, flat⟩
  | binary left right =>
    cases hc
    rfl
  | _ => cases hc

/-- **A formula is canonical if all its nodes fit.** -/
theorem canonical_iff_fits : p.Canonical ↔ ∀ q : Formula, q.IsNodeOf p → q.Fits := by
  refine ⟨fun h q hq => (h.node hq).fits, fun h => ?_⟩
  induction p using induction_operands with
  | step p ih =>
    have operands : ∀ q ∈ p.operands, q.Canonical :=
      fun q hq => ih q hq fun r hr => h r (.operand hq hr)
    have fits : p.Fits := h p (.self p)
    cases p with
    | var v => exact .var v
    | top => exact .top
    | bot => exact .bot
    | not p => exact .not (operands p List.mem_cons_self)
    | join j ps =>
      obtain ⟨many, flat⟩ := fits _ rfl
      exact .join many flat operands
    | binary b p q =>
      exact .binary (operands p List.mem_cons_self)
        (operands q (List.mem_cons_of_mem p List.mem_cons_self))

/-! ## Joining in groups -/

theorem exists_join? (h : ∀ p ∈ ps, p.Canonical) (nonempty : ps ≠ []) :
    ∃ q, join? j ps = some q := by
  refine Option.ne_none_iff_exists'.mp fun vanishes => ?_
  obtain ⟨p, hp⟩ := List.exists_mem_of_ne_nil ps nonempty
  exact (h p hp).parts_ne_nil (join?_eq_none_iff.mp vanishes p hp)

/-- A junction contributes to the next one what its operands do. -/
theorem parts_of_join? (h : ∀ p ∈ ps, p.Canonical) (hq : join? j ps = some q) :
    parts j q = ps.flatMap (parts j) := by
  have spliced : ∀ r ∈ ps.flatMap (parts j), r.Canonical ∧ r.connective? ≠ some (.junction j) :=
    fun r hr => canonical_of_mem_spliced h hr
  unfold join? at hq
  rcases hparts : ps.flatMap (parts j) with _ | ⟨r, _ | ⟨r', rs⟩⟩ <;>
    rw [hparts] at hq spliced <;> cases hq
  · exact parts_eq_singleton (spliced q List.mem_cons_self).2
  · rw [parts, if_pos rfl]

/-- What groups are joined to contributes what all their members do. -/
theorem exists_mapM_join? (h : ∀ ps ∈ pss, ps ≠ [] ∧ ∀ p ∈ ps, p.Canonical) :
    ∃ qs, pss.mapM (join? j) = some qs ∧
      qs.flatMap (parts j) = pss.flatten.flatMap (parts j) := by
  induction pss with
  | nil => exact ⟨[], rfl, rfl⟩
  | cons ps pss ih =>
    obtain ⟨⟨nonempty, canonical⟩, rest⟩ := List.forall_mem_cons.mp h
    obtain ⟨q, hq⟩ := exists_join? canonical nonempty
    obtain ⟨qs, hqs, same⟩ := ih rest
    refine ⟨q :: qs, ?_, ?_⟩
    · rw [List.mapM_cons, hq, hqs]
      rfl
    · rw [List.flatMap_cons, List.flatten_cons, List.flatMap_append, parts_of_join? canonical hq,
        same]

/-- **Operands may be joined in groups**: whatever the groups are, they come to the same formula. -/
theorem mapM_join?_bind (h : ∀ ps ∈ pss, ps ≠ [] ∧ ∀ p ∈ ps, p.Canonical) :
    (pss.mapM (join? j)).bind (join? j) = join? j pss.flatten := by
  obtain ⟨qs, hqs, same⟩ := exists_mapM_join? h
  rw [hqs, Option.bind_some]
  unfold join?
  rw [same]

theorem evaluateAll_eq_mapM : evaluateAll a ps = ps.mapM (evaluate a) := by
  induction ps with
  | nil => rfl
  | cons p ps ih => rw [evaluateAll, ih, List.mapM_cons]

theorem holds_of_join? {f : Valuation} (hq : join? j ps = some q) :
    q.holds f = j.value (ps.map (holds f)) := by
  cases j with
  | and => rw [← holds_join? (d := top) rfl, hq, Option.getD_some]
  | or => rw [← holds_join? (d := bot) rfl, hq, Option.getD_some]

theorem mem_occurrences_of_join? {v : Variable} (hq : join? j ps = some q) :
    v ∈ q.occurrences ↔ ∃ p ∈ ps, v ∈ p.occurrences := by
  rw [← mem_occurrences_join? (d := top) rfl, hq, Option.getD_some]

/-- **A junction evaluates to the junction of the values of what was joined.** -/
theorem evaluate_join? (hq : join? j ps = some q) (given : ∀ v ∈ q.occurrences, v ∈ a) :
    ∃ bs, ps.mapM (evaluate a) = .ok bs ∧ q.evaluate a = .ok (j.value bs) := by
  have operands : ∀ p ∈ ps, p.evaluate a = .ok (p.holds a.valuation) := fun p hp =>
    evaluate_of_completesTo
      (fun v hv => given v ((mem_occurrences_of_join? hq).mpr ⟨p, hp, hv⟩)) a.completesTo_valuation
  refine ⟨ps.map (holds a.valuation), ?_, ?_⟩
  · rw [← evaluateAll_eq_mapM, evaluateAll_eq operands]
  · rw [evaluate_of_completesTo given a.completesTo_valuation, holds_of_join? hq]

end Formula

/-! ## Revisions -/

namespace Revision

variable {k k' : Belief} {s p : Formula} {signal : Signal}

/-- The regions that the trust in a revision declares. -/
def regions : Revision → List Formula
  | trusting t inner => t.declared?.getD [] ++ inner.regions
  | _ => []

/-- **Revision keeps beliefs canonical.** -/
theorem canonical_revise (r : Revision) (hr : ∀ region ∈ r.regions, region.Canonical)
    (hk : ∀ p ∈ k, p.Canonical) (hs : s.Canonical) : ∀ p ∈ r.revise k s, p.Canonical := by
  induction r generalizing s with
  | consistency =>
    intro p hp
    obtain ⟨rfl | hp, -⟩ := mem_consistent.mp hp
    · exact hs
    · exact hk p hp
  | nearest preference =>
    intro p hp
    rw [revise_nearest, believing, ← Std.ExtTreeSet.mem_toList, Belief.toList_singleton,
      List.mem_singleton] at hp
    exact hp ▸ Assignment.canonical_ofAssignments _
  | trusting t inner ih =>
    obtain ⟨declared, below⟩ := List.forall_mem_append.mp hr
    refine ih below (Trust.canonical_understand (fun regions h => ?_) hs)
    rw [h, Option.getD_some] at declared
    exact declared

theorem canonical_attempt (r : Revision) (hr : ∀ region ∈ r.regions, region.Canonical)
    (hk : ∀ p ∈ k, p.Canonical) (hs : s.Canonical) (h : (r.attempt k s).outcome signal = .ok k') :
    ∀ p ∈ k', p.Canonical := by
  cases (r.returns_attempt k s).outcome_eq_ok h
  exact r.canonical_revise hr hk hs

end Revision

/-! ## Announcements -/

namespace Announcement

variable {agents : List Agent} {signal : Signal} {p : Formula}

/-- **What strategies announce is canonical** if the goals are. -/
theorem canonical_of_search {strategy : Strategy} (goals : ∀ agent ∈ agents, agent.goal.Canonical)
    (h : (strategy.search agents).outcome signal = .ok (some p)) : p.Canonical := by
  have ending := (strategy.returns_search agents).outcome_eq_ok h
  by_cases nonempty : agents = []
  · subst nonempty
    cases (strategy.ending_nil).symm.trans ending
    exact .top
  · exact (Strategy.isFull_of_ending nonempty goals ending).2

theorem canonical_of_allSolutions {found : List Formula}
    (h : (allSolutions agents).outcome signal = .ok found) : ∀ p ∈ found, p.Canonical := by
  cases (returns_allSolutions agents).outcome_eq_ok h
  exact fun p hp => canonical_of_mem_allCandidates (List.mem_filter.mp hp).1

end Announcement

/-! ## What can be made -/

namespace Formula

/-- The formulas that the functions which hand out formulas can be brought to hand out, one after
the other. -/
inductive Made : Formula → Prop where
  | var (v : Variable) : Made (var v)
  | top : Made top
  | bot : Made bot
  | apply {c : Connective} {ps : List Formula} {p : Formula} (operands : ∀ q ∈ ps, Made q)
      (h : apply c ps = .ok p) : Made p
  | join {j : Junction} {ps : List Formula} {p : Formula} (operands : ∀ q ∈ ps, Made q)
      (h : join? j ps = some p) : Made p
  | not {p : Formula} (operand : Made p) : Made (not p)
  | and {p q : Formula} (left : Made p) (right : Made q) : Made (p.and q)
  | or {p q : Formula} (left : Made p) (right : Made q) : Made (p.or q)
  | binary {b : Binary} {p q : Formula} (left : Made p) (right : Made q) : Made (binary b p q)
  | operand {p q : Formula} (whole : Made p) (h : q ∈ p.operands) : Made q
  | closure (vs : List Variable) : Made (closure vs)
  | toFormula (a : Assignment) : Made a.toFormula
  | ofAssignments (as : List Assignment) : Made (ofAssignments as)
  | toFullDnf {p : Formula} (made : Made p) : Made p.toFullDnf
  | toDnf {p : Formula} (made : Made p) : Made p.toDnf
  | understand {t : Trust} {s : Formula}
      (regions : ∀ declared ∈ t.declared?, ∀ region ∈ declared, Made region) (sentence : Made s) :
      Made (t.understand s)
  | revise {r : Revision} {k : Belief} {s p : Formula} (regions : ∀ region ∈ r.regions, Made region)
      (beliefs : ∀ q ∈ k, Made q) (sentence : Made s) (h : p ∈ r.revise k s) : Made p
  | attempt {r : Revision} {k k' : Belief} {s p : Formula} {signal : Signal}
      (regions : ∀ region ∈ r.regions, Made region) (beliefs : ∀ q ∈ k, Made q) (sentence : Made s)
      (run : (r.attempt k s).outcome signal = .ok k') (h : p ∈ k') : Made p
  | search {strategy : Strategy} {agents : List Agent} {signal : Signal} {p : Formula}
      (goals : ∀ agent ∈ agents, Made agent.goal)
      (run : (strategy.search agents).outcome signal = .ok (some p)) : Made p
  | allSolutions {agents : List Agent} {signal : Signal} {found : List Formula} {p : Formula}
      (run : (Announcement.allSolutions agents).outcome signal = .ok found) (h : p ∈ found) : Made p

/-- **What is made is canonical.** -/
theorem Made.canonical {p : Formula} (h : p.Made) : p.Canonical := by
  induction h with
  | var v => exact .var v
  | top => exact .top
  | bot => exact .bot
  | apply _ h ih => exact canonical_apply ih h
  | join _ h ih => exact canonical_join? ih h
  | not _ ih => exact .not ih
  | and _ _ ihp ihq => exact canonical_and ihp ihq
  | or _ _ ihp ihq => exact canonical_or ihp ihq
  | binary _ _ ihp ihq => exact .binary ihp ihq
  | operand _ h ih => exact ih.operand h
  | closure vs =>
    refine canonical_getD_join? .top fun p hp => ?_
    obtain ⟨v, -, rfl⟩ := List.mem_map.mp hp
    exact canonical_or (.var v) (.not (.var v))
  | toFormula a => exact a.canonical_toFormula
  | ofAssignments as => exact Assignment.canonical_ofAssignments as
  | toFullDnf => exact Assignment.canonical_ofAssignments _
  | toDnf => exact Assignment.canonical_ofAssignments _
  | understand _ _ regions sentence => exact Trust.canonical_understand regions sentence
  | revise _ _ _ h regions beliefs sentence =>
    exact Revision.canonical_revise _ regions beliefs sentence _ h
  | attempt _ _ _ run h regions beliefs sentence =>
    exact Revision.canonical_attempt _ regions beliefs sentence run _ h
  | search _ run goals => exact Announcement.canonical_of_search goals run
  | allSolutions run h => exact Announcement.canonical_of_allSolutions run _ h

end Formula

namespace Junction

theorem value_and (bs : List Bool) : Junction.and.value bs = bs.and := by
  rw [Bool.eq_iff_iff, List.and, List.all_eq_true]
  simp [value, absorbing]

theorem value_or (bs : List Bool) : Junction.or.value bs = bs.or := by
  rw [Bool.eq_iff_iff, List.or, List.any_eq_true]
  simp [value, absorbing]

end Junction

/-- **What can be made is canonical, and may be joined in any groups.** Every node of a formula that
can be made has the operands that its connective asks for. Joining the junctions of some groups of
such formulas is joining all their members at once, and under an assignment to all variables of the
outcome it evaluates to what the values of the members come to. -/
theorem made_fits_and_regroups :
    (∀ p q : Formula, p.Made → q.IsNodeOf p → q.Fits) ∧
    ∀ (j : Junction) (pss : List (List Formula)), pss ≠ [] →
      (∀ ps ∈ pss, ps ≠ [] ∧ ∀ p ∈ ps, p.Made) →
      ∃ q, (pss.mapM (Formula.join? j)).bind (Formula.join? j) = some q ∧
        Formula.join? j pss.flatten = some q ∧
        ∀ a : Assignment, (∀ v ∈ q.occurrences, v ∈ a) →
          ∃ bs, pss.flatten.mapM (Formula.evaluate a) = .ok bs ∧
            q.evaluate a = .ok (match j with | .and => bs.and | .or => bs.or) := by
  refine ⟨fun p q hp hq => Formula.canonical_iff_fits.mp hp.canonical q hq, ?_⟩
  intro j pss nonempty made
  have groups : ∀ ps ∈ pss, ps ≠ [] ∧ ∀ p ∈ ps, p.Canonical :=
    fun ps hps => ⟨(made ps hps).1, fun p hp => ((made ps hps).2 p hp).canonical⟩
  have members : ∀ p ∈ pss.flatten, p.Canonical := fun p hp => by
    obtain ⟨ps, hps, hp⟩ := List.mem_flatten.mp hp
    exact (groups ps hps).2 p hp
  have some : pss.flatten ≠ [] := fun none => by
    obtain ⟨ps, hps⟩ := List.exists_mem_of_ne_nil pss nonempty
    exact (groups ps hps).1 (List.flatten_eq_nil_iff.mp none ps hps)
  obtain ⟨q, hq⟩ := Formula.exists_join? (j := j) members some
  refine ⟨q, (Formula.mapM_join?_bind groups).trans hq, hq, fun a given => ?_⟩
  obtain ⟨bs, values, value⟩ := Formula.evaluate_join? hq given
  refine ⟨bs, values, value.trans (congrArg Except.ok ?_)⟩
  cases j with
  | and => exact Junction.value_and bs
  | or => exact Junction.value_or bs

/-- A conjunction inside a negation, and two groups of which one is a conjunction already. -/
theorem made_fits_and_regroups_nested :
    ((Formula.var "p").and (.var "q")).not.Made ∧
    ((Formula.var "p").and (.var "q")).IsNodeOf ((Formula.var "p").and (.var "q")).not ∧
    ((Formula.var "p").and (.var "q")).Fits ∧
    (∀ ps ∈ [[(Formula.var "p").and (.var "q")], [.var "r", .top]],
      ps ≠ [] ∧ ∀ p ∈ ps, p.Made) ∧
    ([[(Formula.var "p").and (.var "q")], [.var "r", .top]].mapM
      (Formula.join? .and)).bind (Formula.join? .and) =
        some (.join .and [.var "p", .var "q", .var "r", .top]) ∧
    (Formula.join .and [.var "p", .var "q", .var "r", .top]).evaluate
      (.ofList [("p", true), ("q", false), ("r", true)]) = .ok false := by
  have conjunction : ((Formula.var "p").and (.var "q")).Made := .and (.var "p") (.var "q")
  have node : ((Formula.var "p").and (.var "q")).IsNodeOf ((Formula.var "p").and (.var "q")).not :=
    .operand List.mem_cons_self (.self _)
  have groups : ∀ ps ∈ [[(Formula.var "p").and (.var "q")], [.var "r", .top]],
      ps ≠ [] ∧ ∀ p ∈ ps, p.Made := by
    refine List.forall_mem_cons.mpr ⟨⟨List.cons_ne_nil _ _, ?_⟩,
      List.forall_mem_singleton.mpr ⟨List.cons_ne_nil _ _, ?_⟩⟩
    · exact List.forall_mem_singleton.mpr conjunction
    · exact List.forall_mem_cons.mpr ⟨.var "r", List.forall_mem_singleton.mpr .top⟩
  obtain ⟨q, grouped, flat, evaluates⟩ :=
    made_fits_and_regroups.2 .and _ (List.cons_ne_nil _ _) groups
  cases flat
  obtain ⟨bs, values, value⟩ :=
    evaluates (.ofList [("p", true), ("q", false), ("r", true)]) (by decide +kernel)
  cases values.symm.trans (rfl : _ = Except.ok [false, true, true])
  exact ⟨.not conjunction, node, made_fits_and_regroups.1 _ _ (.not conjunction) node, groups,
    grouped, value⟩

end BeliefRevision
