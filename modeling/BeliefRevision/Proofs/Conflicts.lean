import Mathlib.Algebra.BigOperators.Group.Finset.Piecewise
import Mathlib.Algebra.Order.BigOperators.Group.Finset
import BeliefRevision.Proofs.Distance

/-!
# Distances as metrics

The distances between two assignments count or weigh their conflicts. These are the same from both
sides (`conflicts_comm`), although only the smaller assignment is gone through. Where the outer two
of three assignments conflict, the one in the middle conflicts with one of them, provided that it
gives a value there (`conflicts_subset_union_iff`). This is what the triangle inequality needs, and
without it the inequality fails for some weights (`weighted_triangle_iff`). Weights also have to add
up on the way over the one in the middle, as the detour could seem short otherwise.

* **`distances_metric`**: the distances between assignments to any variables.
-/

namespace BeliefRevision.Assignment

variable {w : Weights} {a b c : Assignment} {v : Variable}

theorem mem_conflicts : v ∈ a.conflicts b ↔ ∃ x, a[v]? = some x ∧ b[v]? = some !x := by
  rw [← toFinset_disagreements, List.mem_toFinset, mem_disagreements]

theorem mem_left_of_mem_conflicts (h : v ∈ a.conflicts b) : v ∈ a := by
  obtain ⟨x, hx, -⟩ := mem_conflicts.mp h
  exact mem_iff_exists.mpr ⟨x, hx⟩

theorem conflicts_comm (a b : Assignment) : a.conflicts b = b.conflicts a := by
  rw [← toFinset_disagreements, ← toFinset_disagreements, disagreements_eq, disagreements_eq,
    differences_comm]

theorem mem_right_of_mem_conflicts (h : v ∈ a.conflicts b) : v ∈ b :=
  mem_left_of_mem_conflicts (conflicts_comm a b ▸ h)

theorem hamming_comm (a b : Assignment) : a.hamming b = b.hamming a := by
  rw [hamming_eq_card, hamming_eq_card, conflicts_comm]

theorem weighted_comm (w : Weights) (a b : Assignment) : a.weighted w b = b.weighted w a := by
  rw [weighted_eq_mod, weighted_eq_mod, conflicts_comm]

theorem isConsistentWith_iff : a.isConsistentWith b = true ↔ a.hamming b = 0 := by
  rw [isConsistentWith, List.isEmpty_iff, hamming, List.length_eq_zero_iff]

/-- Of assignments to the same variables, only equal ones have distance zero. -/
theorem hamming_eq_zero_iff (same : a.domain = b.domain) : a.hamming b = 0 ↔ a = b := by
  rw [hamming, List.length_eq_zero_iff]
  constructor
  · intro none
    refine Std.ExtTreeMap.ext_getElem? fun v => ?_
    exact (getElem?_eq_of_notMem_disagreements same (none ▸ List.not_mem_nil)).symm
  · rintro rfl
    refine List.eq_nil_iff_forall_not_mem.mpr fun v hv => ?_
    obtain ⟨x, hx, hy⟩ := mem_disagreements.mp hv
    exact Bool.not_ne_self x (Option.some.inj (hy.symm.trans hx))

/-! ## Three assignments -/

/-- **Conflicts of the outer assignments are found on the way**, if and only if the one in the middle
gives a value to each of their variables. -/
theorem conflicts_subset_union_iff :
    a.conflicts c ⊆ a.conflicts b ∪ b.conflicts c ↔ ∀ v ∈ a.conflicts c, v ∈ b := by
  constructor
  · intro sub v hv
    exact (Finset.mem_union.mp (sub hv)).elim mem_right_of_mem_conflicts mem_left_of_mem_conflicts
  · intro between v hv
    obtain ⟨x, ha, hc⟩ := mem_conflicts.mp hv
    obtain ⟨y, hb⟩ := mem_iff_exists.mp (between v hv)
    -- The value in the middle differs from one of the outer two, as these differ.
    refine Finset.mem_union.mpr ?_
    by_cases h : y = x
    · exact .inr (mem_conflicts.mpr ⟨x, h ▸ hb, hc⟩)
    · exact .inl (mem_conflicts.mpr ⟨x, ha, by rw [hb, Bool.eq_not.mpr h]⟩)

theorem sum_conflicts_le (weight : Variable → Nat) (between : ∀ v ∈ a.conflicts c, v ∈ b) :
    ∑ v ∈ a.conflicts c, weight v ≤
      ∑ v ∈ a.conflicts b, weight v + ∑ v ∈ b.conflicts c, weight v :=
  calc ∑ v ∈ a.conflicts c, weight v
    _ ≤ ∑ v ∈ a.conflicts b ∪ b.conflicts c, weight v :=
      Finset.sum_le_sum_of_subset (conflicts_subset_union_iff.mpr between)
    _ ≤ ∑ v ∈ a.conflicts b, weight v + ∑ v ∈ b.conflicts c, weight v :=
      Nat.le.intro Finset.sum_union_inter

/-- **The way over an assignment in the middle is no shorter**, if the weights on it add up. -/
theorem weighted_le_add (between : ∀ v ∈ a.conflicts c, v ∈ b) (hab : w.AddUp a b)
    (hbc : w.AddUp b c) : a.weighted w c ≤ a.weighted w b + b.weighted w c :=
  calc a.weighted w c
    _ ≤ ∑ v ∈ a.conflicts c, (w.weightOf v).toNat := weighted_le_sum w a c
    _ ≤ ∑ v ∈ a.conflicts b, (w.weightOf v).toNat + ∑ v ∈ b.conflicts c, (w.weightOf v).toNat :=
      sum_conflicts_le _ between
    _ = a.weighted w b + b.weighted w c := by rw [weighted_eq_sum hab, weighted_eq_sum hbc]

theorem toNat_weightOf_ofEntries_singleton (v u : Variable) :
    ((Weights.ofEntries [(v, 1)]).weightOf u).toNat = if u = v then 1 else 0 := by
  simp only [Weights.weightOf, Weights.ofEntries, List.foldl_cons, List.foldl_nil,
    Std.ExtTreeMap.getElem?_insert, Std.LawfulEqOrd.compare_eq_iff_eq, eq_comm (a := u)]
  split
  · rfl
  · rw [Std.ExtTreeMap.getElem?_empty, Option.getD_none]
    rfl

/-- **The triangle inequality holds for all weights** that add up if and only if the assignment in
the middle gives values where the outer two conflict. -/
theorem weighted_triangle_iff :
    (∀ w : Weights, w.AddUp a b → w.AddUp b c →
      a.weighted w c ≤ a.weighted w b + b.weighted w c) ↔ ∀ v ∈ a.conflicts c, v ∈ b := by
  constructor
  · intro triangle v hv
    by_contra missing
    -- If this variable alone weighs anything, the outer two are apart, but not from the middle.
    have start : v ∉ a.conflicts b := mt mem_right_of_mem_conflicts missing
    have finish : v ∉ b.conflicts c := mt mem_left_of_mem_conflicts missing
    have alone := triangle (.ofEntries [(v, 1)])
    simp only [Weights.AddUp, weighted_eq_mod, toNat_weightOf_ofEntries_singleton,
      Finset.sum_ite_eq', if_pos hv, if_neg start, if_neg finish] at alone
    exact absurd (alone (by decide) (by decide)) (by decide)
  · exact fun between w => weighted_le_add between

/-- **Distances between assignments form metrics.** Whichever of two assignments gives more values,
their distances are the number and the total weight of the variables to which both give values, but
different ones; the total weight has to be a word. They are the same in both directions, and the
Hamming distance is zero exactly if the assignments are consistent, which for assignments to the
same variables means that they are equal. For three assignments, the triangle inequality holds if
the one in the middle gives values to all variables that the outer two share. -/
theorem distances_metric (w : Weights) (a b c : Assignment) :
    a.hamming b = (a.conflicts b).card ∧
    (w.AddUp a b → a.weighted w b = ∑ v ∈ a.conflicts b, (w.weightOf v).toNat) ∧
    a.hamming b = b.hamming a ∧
    a.weighted w b = b.weighted w a ∧
    (a.isConsistentWith b = true ↔ a.hamming b = 0) ∧
    (a.domain = b.domain → (a.hamming b = 0 ↔ a = b)) ∧
    ((∀ v, v ∈ a → v ∈ c → v ∈ b) →
      a.hamming c ≤ a.hamming b + b.hamming c ∧
      (w.AddUp a b → w.AddUp b c → a.weighted w c ≤ a.weighted w b + b.weighted w c)) := by
  refine ⟨hamming_eq_card a b, weighted_eq_sum, hamming_comm a b, weighted_comm w a b,
    isConsistentWith_iff, hamming_eq_zero_iff, fun shared => ?_⟩
  have between : ∀ v ∈ a.conflicts c, v ∈ b := fun v hv =>
    shared v (mem_left_of_mem_conflicts hv) (mem_right_of_mem_conflicts hv)
  refine ⟨?_, weighted_triangle_iff.mpr between w⟩
  simpa only [hamming_eq_card, Finset.card_eq_sum_ones] using sum_conflicts_le (fun _ => 1) between

/-- Three assignments that share some of their variables, the one in the middle the largest. -/
theorem distances_metric_partial :
    let w := Weights.ofEntries [("p", 3), ("q", 2)]
    let a := ofEntries [("p", true), ("q", true)]
    let b := ofEntries [("p", false), ("q", true), ("r", true)]
    let c := ofEntries [("p", false), ("q", false), ("s", true)]
    (∀ v, v ∈ a → v ∈ c → v ∈ b) ∧ w.AddUp a b ∧ w.AddUp b c ∧ a.hamming c = 2 ∧
      a.weighted w c = 5 ∧ a.weighted w b = ∑ v ∈ a.conflicts b, (w.weightOf v).toNat ∧
      b.hamming a = 1 ∧ a.hamming b = b.hamming a ∧
      a.hamming c ≤ a.hamming b + b.hamming c ∧
      a.weighted w c ≤ a.weighted w b + b.weighted w c := by
  obtain ⟨-, total, symm, -, -, -, triangle⟩ := distances_metric
    (Weights.ofEntries [("p", 3), ("q", 2)])
    (ofEntries [("p", true), ("q", true)])
    (ofEntries [("p", false), ("q", true), ("r", true)])
    (ofEntries [("p", false), ("q", false), ("s", true)])
  have shared (v : Variable) (ha : v ∈ ofEntries [("p", true), ("q", true)]) :
      v ∈ ofEntries [("p", false), ("q", true), ("r", true)] := by
    simp only [ofEntries, List.foldl_cons, List.foldl_nil, Std.ExtTreeMap.mem_insert,
      Std.ExtTreeMap.not_mem_empty] at ha ⊢
    tauto
  have start : (Weights.ofEntries [("p", 3), ("q", 2)]).AddUp
      (ofEntries [("p", true), ("q", true)])
      (ofEntries [("p", false), ("q", true), ("r", true)]) := by decide +kernel
  have finish : (Weights.ofEntries [("p", 3), ("q", 2)]).AddUp
      (ofEntries [("p", false), ("q", true), ("r", true)])
      (ofEntries [("p", false), ("q", false), ("s", true)]) := by decide +kernel
  obtain ⟨counted, weighed⟩ := triangle fun v ha _ => shared v ha
  exact ⟨fun v ha _ => shared v ha, start, finish, by decide +kernel, by decide +kernel,
    total start, by decide +kernel, symm, counted, weighed start finish⟩

end BeliefRevision.Assignment
