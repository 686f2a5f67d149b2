import BeliefRevision.Proofs.Canonical
import BeliefRevision.Proofs.Merging
import BeliefRevision.Proofs.TruthTable

/-!
# Formulas that come to a single term

Merging adjacent terms can get stuck on more terms than are needed. It does not if the formula is
equivalent to a single term. Its models are then the completions of this term by all values of the
remaining variables (`ComesTo.models_perm`). In the order of terms, two completions that differ
on the last of these variables only stand next to each other (`ordered_completions`,
`reverse_completions_concat`). So a level merges all its terms in pairs on this one variable, and
what arises are the completions by one variable less (`mergeLevel_pairs`). Level by level all of
them go, and the term is left (`mergeLevels_completions`).

* **`toDnf_eq_toFormula`**: the merged normal form of a formula is the term that it is equivalent
  to, if there is one, and it shows tautologies and contradictions.
-/

namespace BeliefRevision

namespace Assignment

variable {a b c t : Assignment} {terms ts : List Assignment} {v w : Variable}
  {vs : List Variable} {n : Nat}

/-! ## Completions in order -/

theorem Precedes.termOrder_eq_lt (h : Precedes a b) (same : a.domain = b.domain) :
    termOrder a b = .lt := by
  have domains : compareOn domain a b = .eq := by
    rw [compareOn, same]
    exact Std.ReflCmp.compare_self
  rw [termOrder, compareLex, domains]
  exact h.compare_eq_lt same

theorem ordered_completions (fresh : ∀ v ∈ vs, v ∉ c)
    (ascending : vs.Pairwise (compare · · = .lt)) :
    (c.completions vs).reverse.Pairwise (termOrder · · = .lt) := by
  rw [List.pairwise_reverse]
  refine (pairwise_completions fresh ascending).imp_of_mem fun {a b} ha hb precedes => ?_
  exact precedes.termOrder_eq_lt
    (domain_eq_of_mem_completions fresh (nodup_of_ordered ascending) hb ha)

theorem completions_concat (c : Assignment) (vs : List Variable) (v : Variable) :
    c.completions (vs ++ [v]) =
      (c.completions vs).flatMap fun t => [t.insert v true, t.insert v false] := by
  induction vs generalizing c with
  | nil => rfl
  | cons w vs ih => rw [List.cons_append, completions, ih, ih, completions, List.flatMap_append]

/-- **Completions that differ on the last variable only are next to each other.** -/
theorem reverse_completions_concat (c : Assignment) (vs : List Variable) (v : Variable) :
    (c.completions (vs ++ [v])).reverse =
      (c.completions vs).reverse.flatMap fun t => [t.insert v false, t.insert v true] := by
  rw [completions_concat, List.reverse_flatMap]
  rfl

/-! ## Merging completions -/

theorem sortTerms_eq (ordered : ts.Pairwise (termOrder · · = .lt)) (same : terms.Perm ts) :
    sortTerms terms = ts :=
  eq_of_ordered (ordered_sortTerms terms) ordered fun _ => mem_sortTerms.trans same.mem_iff

/-- **A level of pairs** that differ on one new variable merges pair by pair. -/
theorem mergeLevel_pairs (fresh : ∀ t ∈ ts, v ∉ t) :
    mergeLevel (ts.flatMap fun t => [t.insert v false, t.insert v true]) = ([], ts) := by
  induction ts with
  | nil => rw [List.flatMap_nil, mergeLevel]; rfl
  | cons t ts ih =>
    obtain ⟨ht, fresh⟩ := List.forall_mem_cons.mp fresh
    have adjacent : isAdjacent (t.insert v false) (t.insert v true) = true :=
      isAdjacent_iff.mpr ⟨t, v, false, ht, rfl, rfl⟩
    have pair (rest : List Assignment) : adjacentPair? (t.insert v false :: t.insert v true :: rest) =
        some (t.insert v false, t.insert v true) := by
      rw [adjacentPair?, List.find?_cons_of_pos adjacent]
    rw [List.flatMap_cons, List.cons_append, List.cons_append, List.nil_append, mergeLevel]
    split
    · next none => rw [pair] at none; cases none
    · next found =>
      rw [pair] at found
      cases found
      rw [List.erase_cons_head, List.erase_cons_head, ih fresh]
      exact congrArg (([], · :: ts)) (common_insert ht)

theorem mergeLevels_nil : mergeLevels n [] = [] := by
  induction n with
  | zero => rfl
  | succ n ih =>
    have sorted : sortTerms [] = [] := sortTerms_eq .nil .nil
    have level : mergeLevel [] = ([], []) := mergeLevel_pairs (v := "") (List.forall_mem_nil _)
    rw [mergeLevels, sorted, level]
    exact ih

theorem mergeLevels_singleton (c : Assignment) : mergeLevels n [c] = [c] := by
  cases n with
  | zero => rfl
  | succ n =>
    have sorted : sortTerms [c] = [c] := sortTerms_eq (List.pairwise_singleton _ c) .rfl
    have level : mergeLevel [c] = ([c], []) := by
      rw [mergeLevel]
      rfl
    rw [mergeLevels, sorted, level]
    dsimp only
    rw [mergeLevels_nil, List.append_nil]

/-- **The completions of a term come back to it**, however many variables they add. -/
theorem mergeLevels_completions (fresh : ∀ v ∈ vs, v ∉ c)
    (ascending : vs.Pairwise (compare · · = .lt)) (h : terms.Perm (c.completions vs)) :
    mergeLevels (n + vs.length) terms = [c] := by
  -- The induction takes off the last variable, the one on which neighbours differ.
  induction vs using List.reverseRecOn generalizing terms with
  | nil => rw [List.perm_singleton.mp h, mergeLevels_singleton]
  | append_singleton vs v ih =>
    have sorted : sortTerms terms = (c.completions (vs ++ [v])).reverse :=
      sortTerms_eq (ordered_completions fresh ascending) (h.trans (List.reverse_perm _).symm)
    obtain ⟨ascending, -, last⟩ := List.pairwise_append.mp ascending
    obtain ⟨fresh, hv⟩ := List.forall_mem_append.mp fresh
    have new : ∀ t ∈ (c.completions vs).reverse, v ∉ t := by
      intro t ht hvt
      have notMem : v ∉ vs := fun h => by simpa using last v h v (List.mem_singleton.mpr rfl)
      have given := ((mem_completions fresh (nodup_of_ordered ascending)).mp
        (List.mem_reverse.mp ht)).2 v
      exact (given.mp hvt).elim (hv v (List.mem_singleton.mpr rfl)) notMem
    rw [List.length_append, List.length_singleton, ← Nat.add_assoc, mergeLevels, sorted,
      reverse_completions_concat, mergeLevel_pairs new]
    exact ih fresh ascending (List.reverse_perm _)

end Assignment

/-! ## The merged normal form -/

namespace Formula

open Assignment

variable {p : Formula} {c : Assignment} {v : Variable}

/-- The formula is true exactly where the term is. -/
def ComesTo (p : Formula) (c : Assignment) : Prop := ∀ f, p.holds f = true ↔ c.CompletesTo f

/-- The variables of a formula to which a term gives no values, least first. -/
def free (p : Formula) (c : Assignment) : List Variable :=
  p.vocabulary.toList.filter fun v => !c.contains v

theorem mem_free : v ∈ p.free c ↔ v ∈ p.vocabulary ∧ v ∉ c := by
  rw [free, List.mem_filter, Std.ExtTreeSet.mem_toList, Bool.not_eq_true', ← Bool.not_eq_true,
    Std.ExtTreeMap.contains_iff_mem]

theorem notMem_of_mem_free (hv : v ∈ p.free c) : v ∉ c := (mem_free.mp hv).2

theorem ordered_free (p : Formula) (c : Assignment) :
    (p.free c).Pairwise (compare · · = .lt) := Std.ExtTreeSet.ordered_toList.filter _

theorem length_free_le (p : Formula) (c : Assignment) :
    (p.free c).length ≤ p.vocabulary.size := by
  rw [← Std.ExtTreeSet.length_toList]
  exact List.length_filter_le _ _

/-- A formula that comes to a term mentions its variables: the value of each makes a difference. -/
theorem ComesTo.mem_vocabulary (h : p.ComesTo c) (hv : v ∈ c) : v ∈ p.vocabulary := by
  by_contra unmentioned
  obtain ⟨x, hx⟩ := mem_iff_exists.mp hv
  have true : p.holds c.valuation = true := (h _).mpr c.completesTo_valuation
  have flipped : p.holds (Function.update c.valuation v !x) = p.holds c.valuation :=
    p.isOver_vocabulary.holds_eq fun w hw =>
      Function.update_of_ne (ne_of_mem_of_not_mem hw unmentioned) _ _
  have value := (h _).mp (flipped.trans true) v x hx
  rw [Function.update_self] at value
  exact Bool.not_ne_self x value

/-- The models of a formula that comes to a term are the completions of the term. -/
theorem ComesTo.models_perm (h : p.ComesTo c) : p.models.Perm (c.completions (p.free c)) := by
  have fresh : ∀ v ∈ p.free c, v ∉ c := fun _ => notMem_of_mem_free
  have nodup : (p.free c).Nodup := nodup_of_ordered (p.ordered_free c)
  refine (List.perm_ext_iff_of_nodup p.nodup_models (nodup_completions fresh nodup)).mpr fun a => ?_
  have on : a.IsOn p.vocabulary ↔ ∀ v, v ∈ a ↔ v ∈ c ∨ v ∈ p.free c := by
    refine forall_congr' fun v => iff_congr .rfl ?_
    rw [mem_free, or_and_left, and_iff_left (Classical.em _), or_iff_right_of_imp h.mem_vocabulary]
  rw [mem_models, IsModel, mem_completions fresh nodup, ← on, and_comm]
  refine and_congr_left fun ha => ?_
  rw [p.isOver_vocabulary.evaluate_eq_true_iff ha, h,
    extendsTo_iff_completesTo fun v hv => (ha v).mpr (h.mem_vocabulary hv)]

/-- **The merged terms of a formula that comes to a term** are this term alone. -/
theorem ComesTo.mergedTerms_eq (h : p.ComesTo c) : p.mergedTerms = [c] := by
  have fresh : ∀ v ∈ p.free c, v ∉ c := fun _ => notMem_of_mem_free
  obtain ⟨n, levels⟩ := Nat.exists_eq_add_of_le' (p.length_free_le c)
  rw [mergedTerms, levels, mergeLevels_completions fresh (p.ordered_free c) h.models_perm]
  exact sortTerms_eq (List.pairwise_singleton _ c) .rfl

theorem ComesTo.toDnf_eq (h : p.ComesTo c) : p.toDnf = c.toFormula := by
  rw [toDnf, h.mergedTerms_eq, ofAssignments, disjunction, disjunction?, List.map_singleton,
    join?_singleton c.canonical_toFormula, Option.getD_some]

/-- The merged normal form of a formula without models is the false leaf. -/
theorem toDnf_eq_bot (never : ∀ f, p.holds f = false) : p.toDnf = .bot := by
  have none : p.models = [] := by
    rw [List.eq_nil_iff_forall_not_mem]
    intro m hm
    have true := (mem_models.mp hm).holds m.completesTo_valuation
    rw [never] at true
    cases true
  have merged : p.mergedTerms = [] := by
    rw [mergedTerms, none, mergeLevels_nil]
    exact sortTerms_eq .nil .nil
  rw [toDnf, merged]
  rfl

end Formula

/-- **The merged normal form recovers single terms.** A formula that is equivalent to a conjunction
of literals has this conjunction as its merged normal form, whatever else it mentions. So the form
is the true leaf exactly for tautologies. It is the false one exactly for contradictions. -/
theorem toDnf_eq_toFormula (p : Formula) :
    (∀ c : Assignment, p.Equivalent c.toFormula → p.toDnf = c.toFormula) ∧
    (p.toDnf = .top ↔ p.Equivalent .top) ∧ (p.toDnf = .bot ↔ p.Equivalent .bot) := by
  have single (c : Assignment) (h : p.Equivalent c.toFormula) : p.toDnf = c.toFormula := by
    have comes : p.ComesTo c := fun f => by
      rw [Formula.equivalent_iff.mp h f, Assignment.holds_toFormula]
    exact comes.toDnf_eq
  have equivalent {q : Formula} (h : p.toDnf = q) : p.Equivalent q :=
    Formula.equivalent_iff.mpr fun f => by rw [← h, Formula.holds_toDnf]
  refine ⟨single, ⟨equivalent, single ∅⟩, ⟨equivalent, fun h => ?_⟩⟩
  exact Formula.toDnf_eq_bot (Formula.equivalent_iff.mp h)

/-- Five variables, of which three do not matter: one before, one between and one after the two
that do. -/
theorem toDnf_eq_toFormula_inessential :
    (Formula.join .and [.var "q", .not (.var "s"), .join .or [.var "p", .not (.var "p")],
        .binary .implies (.var "r") (.var "r"), .binary .iff (.var "t") (.var "t")]).Equivalent
      (Assignment.ofEntries [("q", true), ("s", false)]).toFormula ∧
    (Formula.join .and [.var "q", .not (.var "s"), .join .or [.var "p", .not (.var "p")],
        .binary .implies (.var "r") (.var "r"), .binary .iff (.var "t") (.var "t")]).toDnf =
      .join .and [.var "q", .not (.var "s")] := by
  have term : (Assignment.ofEntries [("q", true), ("s", false)]).toFormula =
      .join .and [.var "q", .not (.var "s")] := by decide +kernel
  have same : (Formula.join .and [.var "q", .not (.var "s"), .join .or [.var "p", .not (.var "p")],
      .binary .implies (.var "r") (.var "r"), .binary .iff (.var "t") (.var "t")]).Equivalent
        (Assignment.ofEntries [("q", true), ("s", false)]).toFormula := by
    rw [term, Formula.equivalent_iff]
    intro f
    simp [Formula.holds, Formula.holdsAll, Junction.value, Junction.absorbing, Binary.value]
  exact ⟨same, ((toDnf_eq_toFormula _).1 _ same).trans term⟩

end BeliefRevision
