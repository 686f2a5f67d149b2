import Mathlib.Algebra.BigOperators.Ring.List
import Mathlib.Algebra.Order.BigOperators.Group.Finset
import Mathlib.Algebra.Order.BigOperators.GroupWithZero.List
import Mathlib.Algebra.Order.Ring.Rat
import Mathlib.Data.Fintype.BigOperators
import Mathlib.Tactic.Linarith
import Mathlib.Tactic.Ring
import BeliefRevision.Formula.Degree
import BeliefRevision.Proofs.Settled

/-!
# Degrees of truth without rounding

The degree of a formula reads its operands as independent, and variables without a value as open.
Computed exactly, it tells what is settled: a truth value has no chance just if the formula is
settled as the other one (`Reads`).

Every connective keeps this. A negation swaps the chances of the two values. A junction has the
value that does not absorb if all operands have it, so that its chance is their product
(`Junction.chance_degree`), and a product of chances is zero if one of them is, and one if all are.
A binary connective has a value on some rows of its truth table, so that its chance is the sum over
these rows (`Binary.chance_degree`), to which just those add something that its operands can still
reach.

* `reads_degree`: the degree reads what is settled, in any ordered ring.
* **`exactDegree_settles`**: for rational numbers, and in terms of zero and one.
-/

namespace BeliefRevision

/-! ## Chances of truth values -/

section Chance

variable {α : Type} [CommRing α]

/-- The chance of a truth value, given the degree of truth. -/
def chance (b : Bool) (d : α) : α := if b then d else 1 - d

theorem chance_not (b : Bool) (d : α) : chance (!b) d = 1 - chance b d := by
  cases b <;> simp [chance]

theorem chance_one_sub (b : Bool) (d : α) : chance b (1 - d) = chance (!b) d := by
  cases b <;> simp [chance]

theorem product_eq_prod (ds : List α) : product ds = ds.prod := List.prod_eq_foldl.symm

/-- A junction has the value that does not absorb where all operands have it. -/
theorem Junction.chance_degree (j : Junction) (ds : List α) :
    chance (!j.absorbing) (j.degree ds) = (ds.map (chance !j.absorbing)).prod := by
  cases j with
  | and =>
    change product ds = (ds.map fun d => d).prod
    rw [product_eq_prod, List.map_id']
  | or =>
    change 1 - (1 - product (ds.map fun d => 1 - d)) = (ds.map fun d => 1 - d).prod
    rw [product_eq_prod, sub_sub_cancel]

/-- A binary connective has a value on some rows of its truth table. -/
theorem Binary.chance_degree (op : Binary) (b : Bool) (d e : α) :
    chance b (op.degree d e) =
      ∑ row : Bool × Bool with op.value row.1 row.2 = b, chance row.1 d * chance row.2 e := by
  rw [Finset.sum_filter, Fintype.sum_prod_type]
  simp only [Fintype.sum_bool]
  cases op <;> cases b <;> simp [degree, value, product, chance] <;> ring

end Chance

/-! ## Degrees that fit settled values -/

section Reads

variable {α : Type} [CommRing α] [LinearOrder α] {d e : α} {b : Bool} {o o' : Option Bool}

/-- The degree fits the settled value: the chances of both truth values are not negative, and one of
them is zero just if the other value is settled. -/
structure Reads (d : α) (o : Option Bool) : Prop where
  nonneg : ∀ b, 0 ≤ chance b d
  eq_zero_iff : ∀ b, chance b d = 0 ↔ o = some !b

theorem Reads.eq_one_iff (h : Reads d o) (b : Bool) : chance b d = 1 ↔ o = some b := by
  have other := h.eq_zero_iff !b
  rwa [chance_not, Bool.not_not, sub_eq_zero, eq_comm] at other

theorem Reads.not (h : Reads d o) : Reads (1 - d) (o.map (!·)) := by
  refine ⟨fun b => ?_, fun b => ?_⟩
  · rw [chance_one_sub]
    exact h.nonneg _
  · rw [chance_one_sub, h.eq_zero_iff]
    cases o <;> simp

variable [IsStrictOrderedRing α]

theorem Reads.le_one (h : Reads d o) (b : Bool) : chance b d ≤ 1 := by
  have other := h.nonneg !b
  rw [chance_not] at other
  exact sub_nonneg.mp other

/-- The chance of one truth value tells that of the other. -/
theorem Reads.of_chance (nonneg : 0 ≤ chance b d) (le : chance b d ≤ 1)
    (zero : chance b d = 0 ↔ o = some !b) (one : chance b d = 1 ↔ o = some b) : Reads d o := by
  have other : chance (!b) d = 0 ↔ o = some !!b := by
    rw [chance_not, sub_eq_zero, eq_comm, one, Bool.not_not]
  have nonneg' : 0 ≤ chance (!b) d := by
    rw [chance_not]
    exact sub_nonneg.mpr le
  refine ⟨fun c => ?_, fun c => ?_⟩
  · rcases Bool.eq_or_eq_not c b with rfl | rfl
    · exact nonneg
    · exact nonneg'
  · rcases Bool.eq_or_eq_not c b with rfl | rfl
    · exact zero
    · exact other

/-! ## Connectives -/

/-- A product of numbers between zero and one is one only if all of them are. -/
theorem prod_le_one_and_eq_one_iff {xs : List α} (h : ∀ x ∈ xs, 0 ≤ x ∧ x ≤ 1) :
    xs.prod ≤ 1 ∧ (xs.prod = 1 ↔ ∀ x ∈ xs, x = 1) := by
  induction xs with
  | nil => simp
  | cons x xs ih =>
    obtain ⟨⟨nonneg, le⟩, others⟩ := List.forall_mem_cons.mp h
    obtain ⟨le', one_iff⟩ := ih others
    have nonneg' : 0 ≤ xs.prod := List.prod_nonneg fun x hx => (others x hx).1
    rw [List.prod_cons, List.forall_mem_cons, ← one_iff]
    refine ⟨mul_le_one₀ le nonneg' le', fun one => ⟨?_, ?_⟩, ?_⟩
    · exact le_antisymm le (one ▸ mul_le_of_le_one_right nonneg le')
    · exact le_antisymm le' (one ▸ mul_le_of_le_one_left nonneg' le)
    · rintro ⟨rfl, one⟩
      rw [one, one_mul]

theorem Reads.join {β : Type} {ps : List β} {f : β → α} {g : β → Option Bool} (j : Junction)
    (h : ∀ p ∈ ps, Reads (f p) (g p)) : Reads (j.degree (ps.map f)) (j.value? (ps.map g)) := by
  have product := j.chance_degree (ps.map f)
  have between : ∀ x ∈ (ps.map f).map (chance !j.absorbing), 0 ≤ x ∧ x ≤ 1 := by
    simp only [List.forall_mem_map]
    exact fun p hp => ⟨(h p hp).nonneg _, (h p hp).le_one _⟩
  obtain ⟨le, one_iff⟩ := prod_le_one_and_eq_one_iff between
  refine .of_chance (b := !j.absorbing) ?_ (product ▸ le) ?_ ?_
  · rw [product]
    exact List.prod_nonneg fun x hx => (between x hx).1
  · rw [product, List.prod_eq_zero_iff, Bool.not_not, Junction.value?_eq_absorbing_iff]
    simp only [List.mem_map, exists_exists_and_eq_and]
    refine exists_congr fun p => and_congr_right fun hp => ?_
    rw [(h p hp).eq_zero_iff, Bool.not_not]
  · rw [product, one_iff, Junction.value?_eq_not_absorbing_iff]
    simp only [List.forall_mem_map]
    exact forall₂_congr fun p hp => (h p hp).eq_one_iff _

theorem Reads.binary (op : Binary) (hd : Reads d o) (he : Reads e o') :
    Reads (op.degree d e) (op.value? o o') := by
  have nonneg (row : Bool × Bool) : 0 ≤ chance row.1 d * chance row.2 e :=
    mul_nonneg (hd.nonneg _) (he.nonneg _)
  refine ⟨fun b => ?_, fun b => ?_⟩
  · rw [Binary.chance_degree]
    exact Finset.sum_nonneg fun row _ => nonneg row
  · rw [Binary.chance_degree, Finset.sum_eq_zero_iff_of_nonneg fun row _ => nonneg row,
      Binary.value?_eq_some_iff]
    simp only [Finset.mem_filter, Finset.mem_univ, true_and, Prod.forall, mul_eq_zero,
      hd.eq_zero_iff, he.eq_zero_iff, Binary.mem_outcomes_iff]
    refine ⟨fun none y hy z hz => ?_, fun all y z row => ?_⟩
    · refine Bool.eq_not.mpr fun row => ?_
      exact (none y z row).elim hy hz
    · by_contra! reached
      exact Bool.not_ne_self b ((all y reached.1 z reached.2).symm.trans row)

/-! ## Formulas -/

namespace Formula

omit [LinearOrder α] [IsStrictOrderedRing α] in
theorem degrees_eq_map {half : α} {a : Assignment} {ps : List Formula} :
    degrees half a ps = ps.map (degree half a) := by
  induction ps with
  | nil => rfl
  | cons p ps ih => rw [degrees, ih, List.map_cons]

/-- **The degree reads what is settled**, if open variables count as something between. -/
theorem reads_degree {half : α} (pos : 0 < half) (lt : half < 1) (a : Assignment) (p : Formula) :
    Reads (degree half a p) (p.value? a) := by
  have true_ : Reads (1 : α) (some true) := by
    refine .of_chance (b := true) ?_ ?_ ?_ ?_ <;> simp [chance]
  have false_ : Reads (0 : α) (some false) := by
    refine .of_chance (b := true) ?_ ?_ ?_ ?_ <;> simp [chance]
  have open_ : Reads half none := by
    refine .of_chance (b := true) ?_ ?_ ?_ ?_ <;> simp [chance, pos.le, lt.le, pos.ne', lt.ne]
  induction p with
  | var v =>
    rw [degree, value?]
    rcases a[v]? with _ | _ | _
    · exact open_
    · exact false_
    · exact true_
  | top => exact true_
  | bot => exact false_
  | not p ih => exact ih.not
  | join j ps ih =>
    rw [degree, value?, degrees_eq_map, values?_eq_map]
    exact .join j ih
  | binary op p q ihp ihq => exact .binary op ihp ihq

end Formula

end Reads

namespace Formula

/-- The degree in rational numbers, where an open variable counts as one half. -/
def exactDegree (a : Assignment) (p : Formula) : ℚ := degree (1 / 2 : ℚ) a p

/-- **Without rounding, the degree tells what is settled.** It lies between zero and one. It is one
if the formula is settled as true, zero if it is settled as false, and strictly between if it is not
settled. -/
theorem exactDegree_settles (p : Formula) (a : Assignment) :
    (0 ≤ p.exactDegree a ∧ p.exactDegree a ≤ 1) ∧
    (p.exactDegree a = 1 ↔ p.value? a = some true) ∧
    (p.exactDegree a = 0 ↔ p.value? a = some false) ∧
    (0 < p.exactDegree a ∧ p.exactDegree a < 1 ↔ p.value? a = none) := by
  have reads : Reads (p.exactDegree a) (p.value? a) :=
    reads_degree (by norm_num) (by norm_num) a p
  have nonneg : 0 ≤ p.exactDegree a := reads.nonneg true
  have le : p.exactDegree a ≤ 1 := reads.le_one true
  have one : p.exactDegree a = 1 ↔ p.value? a = some true := reads.eq_one_iff true
  have zero : p.exactDegree a = 0 ↔ p.value? a = some false := reads.eq_zero_iff true
  refine ⟨⟨nonneg, le⟩, one, zero, ?_⟩
  rw [lt_iff_le_and_ne, lt_iff_le_and_ne, and_iff_right nonneg, and_iff_right le, ne_comm, ne_eq,
    ne_eq, zero, one]
  rcases p.value? a with _ | _ | _ <;> simp

end Formula

end BeliefRevision
