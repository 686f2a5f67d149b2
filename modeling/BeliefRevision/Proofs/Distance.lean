import Mathlib.Algebra.BigOperators.Group.Finset.Basic
import Mathlib.Order.Bounds.Defs
import BeliefRevision.Belief.Metric
import BeliefRevision.Proofs.Query

/-!
# What the metrics measure

The distances between assignments count the set of their conflicts, the variables to which both give
values, but different ones (`hamming_eq_card`). Weights are added up in words, so that the weighted
distance is the total weight of the conflicts as long as this is a word itself (`weighted_eq_sum`).
The metrics built on them give the least distance from a model (`leastOver_nearest`), and the metric
of layers gives the number of the first layer that can be true together with the assignment
(`firstConsistent_layered`).
-/

namespace BeliefRevision

namespace Assignment

variable {a b : Assignment} {v : Variable} {f : Valuation}

/-- The variables to which both assignments give values, but different ones. -/
def conflicts (a b : Assignment) : Finset Variable :=
  a.domain.toFinset.filter fun v => v ∈ b ∧ a[v]? ≠ b[v]?

theorem mem_differences :
    v ∈ differences a b ↔ ∃ x, a[v]? = some x ∧ b[v]? = some !x := by
  unfold differences
  simp only [List.mem_map, List.mem_filter, Prod.exists, exists_and_right, exists_eq_right,
    Std.ExtTreeMap.mem_toList_iff_getElem?_eq_some, beq_iff_eq]

theorem ordered_differences : (differences a b).Pairwise (compare · · = .lt) := by
  have keys : (a.toList.map Prod.fst).Pairwise (compare · · = .lt) := by
    rw [Std.ExtTreeMap.map_fst_toList_eq_keys]
    exact Std.ExtTreeMap.ordered_keys
  exact keys.sublist (List.filter_sublist.map _)

/-- **Either assignment can be gone through**: the differences are the same, in the same order. -/
theorem differences_comm (a b : Assignment) : differences a b = differences b a := by
  have swap {a b : Assignment} {v : Variable} (h : v ∈ differences a b) : v ∈ differences b a := by
    obtain ⟨x, hx, hy⟩ := mem_differences.mp h
    exact mem_differences.mpr ⟨!x, hy, by rw [Bool.not_not, hx]⟩
  exact eq_of_ordered ordered_differences ordered_differences fun v => ⟨swap, swap⟩

theorem disagreements_eq (a b : Assignment) : disagreements a b = differences a b := by
  unfold disagreements
  split
  · rfl
  · exact differences_comm b a

theorem mem_disagreements :
    v ∈ disagreements a b ↔ ∃ x, a[v]? = some x ∧ b[v]? = some !x := by
  rw [disagreements_eq, mem_differences]

theorem nodup_disagreements : (disagreements a b).Nodup := by
  rw [disagreements_eq]
  exact nodup_of_ordered ordered_differences

/-- Assignments to the same variables have the same values but where they disagree. -/
theorem getElem?_eq_of_notMem_disagreements (same : a.domain = b.domain)
    (agree : v ∉ disagreements a b) : b[v]? = a[v]? := by
  have given : v ∈ a ↔ v ∈ b := domain_eq_iff.mp same v
  rw [mem_iff_exists, mem_iff_exists] at given
  cases ha : a[v]? with
  | none =>
    cases hb : b[v]? with
    | none => rfl
    | some y => simp [ha, hb] at given
  | some x =>
    obtain ⟨y, hy⟩ := given.mp ⟨x, ha⟩
    rw [hy, Option.some_inj]
    by_contra ne
    exact agree (mem_disagreements.mpr ⟨x, ha, by rw [hy, Bool.eq_not.mpr ne]⟩)

theorem toFinset_disagreements : (disagreements a b).toFinset = a.conflicts b := by
  ext v
  rw [List.mem_toFinset, mem_disagreements, conflicts, Finset.mem_filter, List.mem_toFinset,
    mem_domain, mem_iff_exists, mem_iff_exists]
  constructor
  · rintro ⟨x, hx, hy⟩
    refine ⟨⟨x, hx⟩, ⟨_, hy⟩, ?_⟩
    rw [hx, hy]
    simp
  · rintro ⟨⟨x, hx⟩, ⟨y, hy⟩, ne⟩
    rw [hx, hy] at ne
    refine ⟨x, hx, ?_⟩
    rw [hy]
    cases x <;> cases y <;> simp_all

/-- Opposite values of one variable are one conflict. -/
theorem conflicts_alone (v : Variable) :
    (ofEntries [(v, true)]).conflicts (ofEntries [(v, false)]) = {v} := by
  have value (x : Bool) (u : Variable) :
      (ofEntries [(v, x)])[u]? = if v = u then some x else none := by
    simp only [ofEntries, List.foldl_cons, List.foldl_nil, Std.ExtTreeMap.getElem?_insert,
      Std.LawfulEqOrd.compare_eq_iff_eq, Std.ExtTreeMap.getElem?_empty]
  ext u
  rw [← toFinset_disagreements, List.mem_toFinset, mem_disagreements, Finset.mem_singleton, value,
    value]
  by_cases same : v = u
  · simp [same]
  · simp [same, Ne.symm same]

/-- **The Hamming distance is the number of conflicts.** -/
theorem hamming_eq_card (a b : Assignment) : a.hamming b = (a.conflicts b).card := by
  rw [hamming, ← toFinset_disagreements, List.toFinset_card_of_nodup nodup_disagreements]

end Assignment

/-! ## Weights -/

namespace Weights

variable {w : Weights} {a b : Assignment}

/-- A sum of words starts again from zero where it does not fit. -/
theorem toNat_foldr_add (ns : List UInt64) :
    (ns.foldr (· + ·) 0).toNat = (ns.map UInt64.toNat).foldr (· + ·) 0 % UInt64.size := by
  induction ns with
  | nil => rfl
  | cons n ns ih =>
    rw [List.foldr_cons, UInt64.toNat_add, ih, List.map_cons, List.foldr_cons]
    exact Nat.add_mod_mod _ _ _

/-- The total weight of the conflicts is a word. -/
def AddUp (w : Weights) (a b : Assignment) : Prop :=
  ∑ v ∈ a.conflicts b, (w.weightOf v).toNat < UInt64.size

instance : Decidable (w.AddUp a b) := inferInstanceAs (Decidable (_ < _))

end Weights

namespace Assignment

variable {w : Weights} {a b : Assignment}

theorem weighted_eq_mod (w : Weights) (a b : Assignment) :
    a.weighted w b = (∑ v ∈ a.conflicts b, (w.weightOf v).toNat) % UInt64.size := by
  rw [weighted, Weights.toNat_foldr_add, List.map_map, ← toFinset_disagreements,
    List.sum_toFinset _ nodup_disagreements]
  rfl

/-- **The weighted distance is the total weight of the conflicts**, if this is a word. -/
theorem weighted_eq_sum (h : w.AddUp a b) :
    a.weighted w b = ∑ v ∈ a.conflicts b, (w.weightOf v).toNat :=
  (weighted_eq_mod w a b).trans (Nat.mod_eq_of_lt h)

/-- A distance in words is never more than the total weight. -/
theorem weighted_le_sum (w : Weights) (a b : Assignment) :
    a.weighted w b ≤ ∑ v ∈ a.conflicts b, (w.weightOf v).toNat :=
  (weighted_eq_mod w a b).trans_le (Nat.mod_le _ _)

end Assignment

/-! ## Distances from the models -/

/-- The number is the least count of a model, or zero if there is no model. -/
def Formula.LeastOver (p : Formula) (count : Assignment → Nat) (n : Nat) : Prop :=
  IsLeast {d | ∃ m, p.IsModel m ∧ count m = d} n ∨ (¬∃ m, p.IsModel m) ∧ n = 0

theorem Formula.LeastOver.congr {p : Formula} {count count' : Assignment → Nat} {n : Nat}
    (h : p.LeastOver count n) (same : ∀ m, p.IsModel m → count m = count' m) :
    p.LeastOver count' n := by
  have counts (d : Nat) :
      (∃ m, p.IsModel m ∧ count m = d) ↔ ∃ m, p.IsModel m ∧ count' m = d :=
    exists_congr fun m => and_congr_right fun hm => by rw [same m hm]
  simpa only [Formula.LeastOver, counts] using h

theorem Metric.leastOver_nearest (p : Formula) (count : Assignment → Nat) :
    p.LeastOver count (Metric.nearest count p.models) := by
  unfold Metric.nearest
  cases h : (p.models.map count).min? with
  | none =>
    have empty : p.models = [] := List.map_eq_nil_iff.mp (List.min?_eq_none_iff.mp h)
    refine Or.inr ⟨?_, rfl⟩
    rintro ⟨m, hm⟩
    rw [← Formula.mem_models, empty] at hm
    cases hm
  | some n =>
    obtain ⟨mem, least⟩ := List.min?_eq_some_iff.mp h
    obtain ⟨m, hm, rfl⟩ := List.mem_map.mp mem
    refine Or.inl ⟨⟨m, Formula.mem_models.mp hm, rfl⟩, ?_⟩
    rintro d ⟨m', hm', rfl⟩
    exact least _ (List.mem_map_of_mem (Formula.mem_models.mpr hm'))

theorem Formula.LeastOver.eq_nearest {p : Formula} {count : Assignment → Nat} {n : Nat}
    (h : p.LeastOver count n) : n = Metric.nearest count p.models := by
  rcases h, Metric.leastOver_nearest p count with ⟨least | ⟨none, zero⟩, least' | ⟨none', zero'⟩⟩
  · exact Nat.le_antisymm (least.2 least'.1) (least'.2 least.1)
  · exact absurd (least.1.imp fun _ => And.left) none'
  · exact absurd (least'.1.imp fun _ => And.left) none
  · exact zero.trans zero'.symm

/-! ## Layers -/

/-- The formula is true under some completion of the assignment. -/
def Assignment.IsConsistentWith (a : Assignment) (p : Formula) : Prop :=
  ∃ f, a.CompletesTo f ∧ p.holds f = true

theorem isSatisfiable_and_toFormula {p : Formula} {a : Assignment} :
    (p.and a.toFormula).isSatisfiable = true ↔ a.IsConsistentWith p := by
  rw [Formula.isSatisfiable_iff]
  refine exists_congr fun f => ?_
  rw [Formula.holds_and, Assignment.holds_toFormula, and_comm]

/-- The number is the place of the first listed formula that the assignment is consistent with. -/
def Assignment.FirstConsistent (a : Assignment) (ps : List Formula) (n : Nat) : Prop :=
  (∃ p, ps[n]? = some p ∧ a.IsConsistentWith p) ∧
    ∀ i < n, ∀ p, ps[i]? = some p → ¬a.IsConsistentWith p

theorem Metric.firstConsistent_layered (layers : List Formula) (k : Belief) (ms : List Assignment)
    (a : Assignment) :
    a.FirstConsistent (k.formula :: layers ++ [.top])
      ((Metric.layered layers).distance k ms a) := by
  have last : a.IsConsistentWith .top := ⟨a.valuation, a.completesTo_valuation, rfl⟩
  unfold layered
  dsimp only
  generalize k.formula :: layers = ps
  generalize htest : (fun layer : Formula => (layer.and a.toFormula).isSatisfiable) = test
  have test_iff (p : Formula) : test p = true ↔ a.IsConsistentWith p := by
    rw [← htest, isSatisfiable_and_toFormula]
  have le : ps.findIdx test ≤ ps.length := List.findIdx_le_length
  constructor
  · rcases Nat.lt_or_eq_of_le le with lt | eq
    · refine ⟨ps[ps.findIdx test], ?_, (test_iff _).mp List.findIdx_getElem⟩
      rw [List.getElem?_append_left lt, List.getElem?_eq_getElem lt]
    · refine ⟨.top, ?_, last⟩
      rw [eq, List.getElem?_append_right (Nat.le_refl _), Nat.sub_self]
      rfl
  · intro i hi p hp consistent
    have lt : i < ps.length := Nat.lt_of_lt_of_le hi le
    rw [List.getElem?_append_left lt, List.getElem?_eq_getElem lt] at hp
    cases hp
    have skipped : test ps[i] = false := List.not_of_lt_findIdx hi
    rw [(test_iff _).mpr consistent] at skipped
    cases skipped

end BeliefRevision
