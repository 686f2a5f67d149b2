import Mathlib.Algebra.Group.Nat.Defs
import Mathlib.Data.Finset.Card
import BeliefRevision.Proofs.Enumeration

/-!
# Truth tables

A truth table lists the assignments to some variables, true before false, where the first variable
counts most. It doubles with every variable (`length_completions`), and if the variables are in
order, then the rows are too: they go down in the order of assignments, which is decided by the
first variable on which two of them differ (`Precedes.compare_eq_lt`, `pairwise_completions`).

Variables listed in any order and with repetitions are put in order first. Sorting brings
repetitions together, so that it is enough to drop those next to each other (`ordered_eraseReps`),
and what is left depends on the set of variables only (`arrange_congr`).

* **`onVariables_exact`**: the assignments to any listed variables.
-/

namespace BeliefRevision

/-! ## Variables in order -/

section Repetitions

variable {α : Type} [BEq α] {as : List α} {a b : α}

theorem eraseReps_loop (a : α) (as kept : List α) :
    List.eraseRepsBy.loop (· == ·) a as kept = kept.reverse ++ (a :: as).eraseReps := by
  induction as generalizing a kept with
  | nil => exact List.reverse_cons
  | cons b as ih =>
    have start : (a :: b :: as).eraseReps = List.eraseRepsBy.loop (· == ·) a (b :: as) [] := rfl
    rw [start, List.eraseRepsBy.loop, List.eraseRepsBy.loop]
    cases a == b with
    | true => exact (ih a kept).trans (congrArg (kept.reverse ++ ·) (ih a []).symm)
    | false =>
      refine (ih b (a :: kept)).trans ?_
      rw [ih b [a], List.reverse_cons, List.append_assoc]
      rfl

variable [LawfulBEq α]

/-- Of two neighbours that are equal, one is left. -/
theorem eraseReps_cons_cons (a b : α) (as : List α) : (a :: b :: as).eraseReps =
    if a == b then (b :: as).eraseReps else a :: (b :: as).eraseReps := by
  have start : (a :: b :: as).eraseReps = List.eraseRepsBy.loop (· == ·) a (b :: as) [] := rfl
  rw [start, List.eraseRepsBy.loop]
  cases same : a == b with
  | true => exact eq_of_beq same ▸ eraseReps_loop a as []
  | false => exact eraseReps_loop b as [a]

theorem mem_eraseReps : a ∈ as.eraseReps ↔ a ∈ as := by
  induction as with
  | nil => exact .rfl
  | cons b as ih =>
    cases as with
    | nil => exact .rfl
    | cons c as =>
      rw [eraseReps_cons_cons]
      split
      · next same =>
        have again : a = b → a ∈ c :: as := fun h => h.trans (eq_of_beq same) ▸ List.mem_cons_self
        rw [ih, List.mem_cons (a := a) (b := b), or_iff_right_of_imp again]
      · rw [List.mem_cons, ih, List.mem_cons (b := b)]

/-- **In a sorted list, equal elements are neighbours**, so that only different ones are left. -/
theorem ordered_eraseReps {cmp : α → α → Ordering} [Std.TransCmp cmp] [Std.LawfulEqCmp cmp]
    (sorted : as.Pairwise fun a b => (cmp a b).isLE = true) :
    as.eraseReps.Pairwise (cmp · · = .lt) := by
  induction as with
  | nil => exact List.Pairwise.nil
  | cons a as ih =>
    obtain ⟨least, sorted⟩ := List.pairwise_cons.mp sorted
    cases as with
    | nil => exact List.pairwise_singleton _ a
    | cons b as =>
      rw [eraseReps_cons_cons]
      split
      · exact ih sorted
      · next differs =>
        refine List.pairwise_cons.mpr ⟨fun c hc => ?_, ih sorted⟩
        have first : cmp a b = .lt :=
          (Ordering.isLE_iff_eq_lt_or_eq_eq.mp (least b List.mem_cons_self)).resolve_right
            fun tie => differs (beq_iff_eq.mpr (Std.LawfulEqCmp.eq_of_compare tie))
        rcases List.mem_cons.mp (mem_eraseReps.mp hc) with rfl | hc
        · exact first
        · exact Std.TransCmp.lt_of_lt_of_isLE first ((List.pairwise_cons.mp sorted).1 c hc)

end Repetitions

namespace Variable

variable {us vs : List Variable} {v : Variable}

theorem mem_arrange : v ∈ arrange vs ↔ v ∈ vs := by
  rw [arrange, mem_eraseReps, List.mem_mergeSort]

theorem ordered_arrange (vs : List Variable) : (arrange vs).Pairwise (compare · · = .lt) := by
  refine ordered_eraseReps (List.pairwise_mergeSort (fun _ _ _ => Std.TransCmp.isLE_trans) ?_ vs)
  intro v w
  rw [Bool.or_eq_true]
  exact or_iff_not_imp_left.mpr fun gt =>
    Ordering.isLE_of_eq_lt (Std.OrientedCmp.lt_of_not_isLE gt)

/-- **Only the set of variables matters.** -/
theorem arrange_congr (same : ∀ v, v ∈ us ↔ v ∈ vs) : arrange us = arrange vs :=
  eq_of_ordered (ordered_arrange us) (ordered_arrange vs) fun v => by
    rw [mem_arrange, mem_arrange, same]

theorem arrange_eq_toList (vs : List Variable) : arrange vs = (.ofList vs : Vocabulary).toList :=
  eq_of_ordered (ordered_arrange vs) Std.ExtTreeSet.ordered_toList fun v => by
    rw [mem_arrange, Std.ExtTreeSet.mem_toList, mem_vocabulary_ofList]

theorem length_arrange (vs : List Variable) : (arrange vs).length = vs.toFinset.card := by
  have same : vs.toFinset = (arrange vs).toFinset := by
    ext v
    rw [List.mem_toFinset, List.mem_toFinset, mem_arrange]
  rw [same, List.toFinset_card_of_nodup (nodup_of_ordered (ordered_arrange vs))]

end Variable

namespace Assignment

variable {a b c t : Assignment} {v w : Variable} {vs : List Variable}

/-! ## The first difference -/

/-- Entries of the same variables are ordered by the first ones that differ. -/
theorem compareLex_eq_lt {l m : List (Variable × Bool)} (same : l.map Prod.fst = m.map Prod.fst)
    (ordered : (l.map Prod.fst).Pairwise (compare · · = .lt)) (hl : (v, false) ∈ l)
    (hm : (v, true) ∈ m)
    (before : ∀ w, compare w v = .lt → ∀ x y, (w, x) ∈ l → (w, y) ∈ m → x = y) :
    List.compareLex entryOrder l m = .lt := by
  have irrefl (u : Variable) : compare u u ≠ .lt := by simp
  induction l generalizing m with
  | nil => cases hl
  | cons entry l ih =>
    obtain ⟨w, x⟩ := entry
    cases m with
    | nil => cases hm
    | cons entry' m =>
      obtain ⟨w', y⟩ := entry'
      obtain ⟨rfl, rest⟩ : w = w' ∧ l.map Prod.fst = m.map Prod.fst := List.cons.inj same
      obtain ⟨first, ordered⟩ := List.pairwise_cons.mp ordered
      rw [List.compareLex_cons_cons]
      rcases List.mem_cons.mp hl with head | hl
      · cases head
        rcases List.mem_cons.mp hm with head | hm
        · cases head
          have lt : entryOrder (v, false) (v, true) = .lt := by
            simp only [entryOrder, compareLex, compareOn, Std.ReflCmp.compare_self]
            rfl
          rw [lt]
          rfl
        · exact absurd (first v (rest ▸ List.mem_map_of_mem hm)) (irrefl v)
      · have lt : compare w v = .lt := first v (List.mem_map_of_mem hl)
        rcases List.mem_cons.mp hm with head | hm
        · cases head
          exact absurd lt (irrefl _)
        · have eq : x = y := before w lt x y List.mem_cons_self List.mem_cons_self
          have self : entryOrder (w, y) (w, y) = .eq := Std.ReflCmp.compare_self
          rw [eq, self]
          exact ih rest ordered hl hm fun u hu z z' hz hz' =>
            before u hu z z' (List.mem_cons_of_mem _ hz) (List.mem_cons_of_mem _ hz')

/-- The first variable on which the assignments differ is false in the one and true in the other. -/
def Precedes (a b : Assignment) : Prop :=
  ∃ v : Variable, a[v]? = some false ∧ b[v]? = some true ∧
    ∀ w, compare w v = .lt → a[w]? = b[w]?

/-- **Assignments to the same variables are ordered by their first difference.** -/
theorem Precedes.compare_eq_lt (h : Precedes a b) (same : a.domain = b.domain) :
    compare a b = .lt := by
  obtain ⟨v, ha, hb, before⟩ := h
  refine compareLex_eq_lt (v := v) ?_ ?_ (Std.ExtTreeMap.mem_toList_iff_getElem?_eq_some.mpr ha)
    (Std.ExtTreeMap.mem_toList_iff_getElem?_eq_some.mpr hb) fun w hw x y hx hy => ?_
  · rw [Std.ExtTreeMap.map_fst_toList_eq_keys, Std.ExtTreeMap.map_fst_toList_eq_keys]
    exact same
  · rw [Std.ExtTreeMap.map_fst_toList_eq_keys]
    exact Std.ExtTreeMap.ordered_keys
  · rw [Std.ExtTreeMap.mem_toList_iff_getElem?_eq_some] at hx hy
    rw [before w hw, hy] at hx
    exact (Option.some.inj hx).symm

/-! ## Completions in order -/

/-- Each further variable doubles the number of completions. -/
theorem length_completions (a : Assignment) (vs : List Variable) :
    (a.completions vs).length = 2 ^ vs.length := by
  induction vs generalizing a with
  | nil => rfl
  | cons v vs ih =>
    rw [completions, List.length_append, ih, ih, List.length_cons, Nat.pow_succ, Nat.mul_two]

/-- A completion gives no values but those of the term and of the variables that it adds. -/
theorem getElem?_of_mem_completions (fresh : ∀ v ∈ vs, v ∉ a) (nodup : vs.Nodup)
    (h : t ∈ a.completions vs) (hw : w ∉ vs) : t[w]? = a[w]? := by
  obtain ⟨follows, given⟩ := (mem_completions fresh nodup).mp h
  cases ha : a[w]? with
  | some x => exact follows w x ha
  | none =>
    have notMem : w ∉ t := fun ht => ((given w).mp ht).elim (by simp [mem_iff_exists, ha]) hw
    exact Std.ExtTreeMap.getElem?_eq_none notMem

theorem domain_eq_of_mem_completions (fresh : ∀ v ∈ vs, v ∉ c) (nodup : vs.Nodup)
    (ha : a ∈ c.completions vs) (hb : b ∈ c.completions vs) : a.domain = b.domain :=
  domain_eq_iff.mpr fun v => (((mem_completions fresh nodup).mp ha).2 v).trans
    (((mem_completions fresh nodup).mp hb).2 v).symm

/-- Completions by variables in order are listed from the last one on. -/
theorem pairwise_completions (fresh : ∀ v ∈ vs, v ∉ c)
    (ascending : vs.Pairwise (compare · · = .lt)) :
    (c.completions vs).Pairwise fun a b => Precedes b a := by
  induction vs generalizing c with
  | nil => exact List.pairwise_singleton _ c
  | cons v vs ih =>
    have nodup := nodup_of_ordered ascending
    obtain ⟨least, ascending⟩ := List.pairwise_cons.mp ascending
    have fresh' (x : Bool) : ∀ w ∈ vs, w ∉ c.insert v x := notMem_insert fresh nodup
    have unchanged {x : Bool} {t : Assignment} {w : Variable}
        (ht : t ∈ completions (c.insert v x) vs) (hw : w ∉ vs) : t[w]? = (c.insert v x)[w]? :=
      getElem?_of_mem_completions (fresh' x) (List.nodup_cons.mp nodup).2 ht hw
    refine List.pairwise_append.mpr ⟨ih (fresh' true) ascending, ih (fresh' false) ascending,
      fun a ha b hb => ⟨v, ?_, ?_, fun w lt => ?_⟩⟩
    · rw [unchanged hb (List.nodup_cons.mp nodup).1, getElem?_insert_eq, if_pos rfl]
    · rw [unchanged ha (List.nodup_cons.mp nodup).1, getElem?_insert_eq, if_pos rfl]
    · -- Variables before `v` are before all of `vs`, so both completions leave them as they were.
      have notMem : w ∉ vs := fun hw => Std.OrientedCmp.not_lt_of_lt lt (least w hw)
      have other : v ≠ w := by
        rintro rfl
        simp at lt
      rw [unchanged hb notMem, unchanged ha notMem, getElem?_insert_eq, getElem?_insert_eq,
        if_neg other, if_neg other]

/-- **The assignments to listed variables** number two to the number of different variables. They are
all the assignments to just these variables, and go down in the order of assignments: of two of them
the first one is true for the least variable on which they differ. So they depend on the set of
variables only, and are those that are listed for this set. -/
theorem onVariables_exact (vs : List Variable) :
    (onVariables vs).length = 2 ^ vs.toFinset.card ∧
    (∀ a, a ∈ onVariables vs ↔ ∀ v, v ∈ a ↔ v ∈ vs) ∧
    ((onVariables vs).Pairwise fun a b => compare b a = .lt ∧ b.Precedes a) ∧
    (∀ us : List Variable, (∀ v, v ∈ us ↔ v ∈ vs) → onVariables us = onVariables vs) ∧
    onVariables vs = onVocabulary (.ofList vs) := by
  have ordered := Variable.ordered_arrange vs
  have fresh : ∀ v ∈ Variable.arrange vs, v ∉ (∅ : Assignment) := fun _ _ =>
    Std.ExtTreeMap.not_mem_empty
  have table : onVariables vs = completions ∅ (Variable.arrange vs) := (completions_empty _).symm
  refine ⟨?_, fun a => ?_, ?_, fun us same => ?_, ?_⟩
  · rw [table, length_completions, Variable.length_arrange]
  · rw [table, mem_completions fresh (nodup_of_ordered ordered), and_iff_right extendsTo_empty]
    simp only [Variable.mem_arrange, Std.ExtTreeMap.not_mem_empty, false_or]
  · rw [table]
    refine (pairwise_completions fresh ordered).imp_of_mem fun ha hb precedes => ⟨?_, precedes⟩
    exact precedes.compare_eq_lt
      (domain_eq_of_mem_completions fresh (nodup_of_ordered ordered) hb ha)
  · rw [onVariables, Variable.arrange_congr same, onVariables]
  · rw [onVariables, Variable.arrange_eq_toList, onVocabulary]

/-- Two variables, one of them listed twice. -/
theorem onVariables_exact_repeated :
    (∀ v, v ∈ ["p", "q"] ↔ v ∈ ["q", "p", "q"]) ∧
    onVariables ["p", "q"] = onVariables ["q", "p", "q"] ∧
    (onVariables ["q", "p", "q"]).length = 4 ∧
    onVariables ["q", "p", "q"] = [ofEntries [("p", true), ("q", true)],
      ofEntries [("p", true), ("q", false)], ofEntries [("p", false), ("q", true)],
      ofEntries [("p", false), ("q", false)]] := by
  obtain ⟨count, -, -, congr, listed⟩ := onVariables_exact ["q", "p", "q"]
  have same (v : Variable) : v ∈ ["p", "q"] ↔ v ∈ ["q", "p", "q"] := by grind
  refine ⟨same, congr _ same, count.trans (by decide), listed.trans ?_⟩
  decide +kernel

end Assignment

end BeliefRevision
