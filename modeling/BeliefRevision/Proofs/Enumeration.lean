import BeliefRevision.Model.Enumeration
import BeliefRevision.Proofs.Settled

/-!
# The enumeration of models is exact

The best-first search delivers every model of a formula once and nothing else, whatever measure of
promise ranks its branches and in whatever order it assigns the variables. The invariant is
`Frontier.remaining`: the models still to come are divided among the branches, each branch leading
to those completions of its assignment that make the formula true. A step takes from them exactly
the model that it delivers (`remaining_of_step`), and so a run delivers them all (`models_perm`).

* `branchingOrder_perm`: the search assigns each variable of the formula, once.
* `mem_models`, `nodup_models`: what the search delivers.
* **`models_exact`**: all of this in one statement, for the enumeration that is asked model by
  model as well.
-/

namespace BeliefRevision

/-! ## The order of the variables -/

/-- The influences name each of the listed variables, and each once. -/
def Influences.Names (sums : Influences) (vs : List Variable) : Prop :=
  (sums.map Prod.fst).Nodup ∧ ∀ v, v ∈ sums.map Prod.fst ↔ v ∈ vs

theorem Influences.collect_keys (share : Float) (v : Variable) (sums : Influences) :
    (sums.collect share v).map Prod.fst =
      if v ∈ sums.map Prod.fst then sums.map Prod.fst else sums.map Prod.fst ++ [v] := by
  induction sums with
  | nil => rfl
  | cons entry rest ih =>
    obtain ⟨w, x⟩ := entry
    rw [collect]
    by_cases h : w = v
    · simp [h]
    · rw [if_neg h, List.map_cons, ih, List.map_cons]
      by_cases hr : v ∈ rest.map Prod.fst
      · rw [if_pos hr, if_pos (List.mem_cons_of_mem w hr)]
      · rw [if_neg hr, if_neg (by simp [Ne.symm h, hr])]
        rfl

theorem Influences.Names.collect {sums : Influences} {vs : List Variable} (h : sums.Names vs)
    (share : Float) (v : Variable) : Influences.Names (sums.collect share v) (vs ++ [v]) := by
  unfold Names
  rw [collect_keys]
  by_cases hv : v ∈ sums.map Prod.fst
  · rw [if_pos hv]
    refine ⟨h.1, fun w => ?_⟩
    rw [h.2, List.mem_append, List.mem_singleton]
    exact ⟨Or.inl, fun hw => hw.elim id fun e => e ▸ (h.2 v).mp hv⟩
  · rw [if_neg hv]
    refine ⟨List.nodup_append.mpr ⟨h.1, List.nodup_singleton v, ?_⟩, fun w => ?_⟩
    · rintro w hw u hu rfl
      exact hv (List.mem_singleton.mp hu ▸ hw)
    · rw [List.mem_append, List.mem_append, h.2]

namespace Formula

variable {p : Formula} {a b : Assignment}

theorem names_spread {sums : Influences} {vs : List Variable} (h : sums.Names vs) (share : Float) :
    Influences.Names (p.spread share sums) (vs ++ p.occurrences) := by
  induction p generalizing sums vs share with
  | var v => exact h.collect share v
  | top => simpa [spread, occurrences] using h
  | bot => simpa [spread, occurrences] using h
  | not p ih => exact ih h _
  | join j ps ih =>
    rw [spread, occurrences]
    generalize share / Float.ofNat ps.length = share
    induction ps generalizing sums vs with
    | nil => simpa [spreadAll, occurrencesAll] using h
    | cons p ps ihs =>
      rw [spreadAll, occurrencesAll, ← List.append_assoc]
      exact ihs (fun q hq => ih q (List.mem_cons_of_mem p hq)) (ih p List.mem_cons_self h share)
  | binary op p q ihp ihq =>
    rw [spread, occurrences, ← List.append_assoc]
    exact ihq (ihp h _) _

/-- **The search assigns the variables that occur**, each once. -/
theorem branchingOrder_perm (p : Formula) : p.branchingOrder.Perm p.vocabulary.toList := by
  have none : Influences.Names [] [] := ⟨List.nodup_nil, fun _ => Iff.rfl⟩
  obtain ⟨nodup, mem⟩ := names_spread (p := p) none 1
  have perm : p.branchingOrder.Perm (p.influences.map Prod.fst) := (ranked_perm _).map _
  refine perm.trans ((List.perm_ext_iff_of_nodup nodup (nodup_toList _)).mpr fun v => ?_)
  rw [mem, Std.ExtTreeSet.mem_toList, mem_vocabulary]
  rfl

/-! ## Models -/

/-- The assignment is on the vocabulary of the formula and makes it true. -/
def IsModel (p : Formula) (a : Assignment) : Prop := a.IsOn p.vocabulary ∧ p.evaluate a = .ok true

theorem holds_valuation (h : ∀ v ∈ p.occurrences, v ∈ a) :
    p.evaluate a = .ok (p.holds a.valuation) ∧ p.value? a = some (p.holds a.valuation) :=
  have given : ∀ v ∈ p.occurrences, a[v]? = some (a.valuation v) :=
    fun v hv => Assignment.getElem?_eq_valuation (h v hv)
  ⟨evaluate_eq given, value?_eq_holds given⟩

theorem isModel_iff_value? (h : a.IsOn p.vocabulary) : p.IsModel a ↔ p.value? a = some true := by
  obtain ⟨he, hv⟩ := holds_valuation fun v hv => (h v).mpr (mem_vocabulary.mpr hv)
  rw [IsModel, he, hv, and_iff_right h]
  simp

end Formula

/-! ## Completions of a branch -/

/-- The assignments that give values to further variables as well. -/
def Assignment.completions (a : Assignment) : List Variable → List Assignment
  | [] => [a]
  | v :: vs => completions (a.insert v true) vs ++ completions (a.insert v false) vs

namespace Assignment

variable {a b : Assignment} {v : Variable} {vs : List Variable} {x : Bool}

theorem notMem_insert (fresh : ∀ w ∈ v :: vs, w ∉ a) (nodup : (v :: vs).Nodup) :
    ∀ w ∈ vs, w ∉ a.insert v x := by
  intro w hw hi
  rw [Std.ExtTreeMap.mem_insert, Std.LawfulEqOrd.compare_eq_iff_eq] at hi
  rcases hi with rfl | hi
  · exact (List.nodup_cons.mp nodup).1 hw
  · exact fresh w (List.mem_cons_of_mem v hw) hi

/-- **The completions are the extensions by the given variables.** -/
theorem mem_completions (fresh : ∀ v ∈ vs, v ∉ a) (nodup : vs.Nodup) :
    b ∈ a.completions vs ↔ a.ExtendsTo b ∧ ∀ v, v ∈ b ↔ v ∈ a ∨ v ∈ vs := by
  induction vs generalizing a with
  | nil =>
    rw [completions, List.mem_singleton]
    constructor
    · rintro rfl
      exact ⟨.refl b, by simp⟩
    · rintro ⟨hext, hmem⟩
      exact (hext.eq fun v hv => by simpa using (hmem v).mp hv).symm
  | cons v vs ih =>
    have side : ∀ x, b ∈ completions (a.insert v x) vs ↔
        (a.ExtendsTo b ∧ b[v]? = some x) ∧ ∀ w, w ∈ b ↔ w ∈ a ∨ w ∈ v :: vs := by
      intro x
      rw [ih (notMem_insert fresh nodup) (List.nodup_cons.mp nodup).2,
        extendsTo_insert_iff (fresh v List.mem_cons_self)]
      refine and_congr_right fun _ => forall_congr' fun w => ?_
      rw [Std.ExtTreeMap.mem_insert, Std.LawfulEqOrd.compare_eq_iff_eq, List.mem_cons, eq_comm,
        or_assoc, or_left_comm]
    rw [completions, List.mem_append, side, side]
    constructor
    · rintro (⟨⟨hext, -⟩, hmem⟩ | ⟨⟨hext, -⟩, hmem⟩) <;> exact ⟨hext, hmem⟩
    · rintro ⟨hext, hmem⟩
      obtain ⟨x, hx⟩ := mem_iff_exists.mp ((hmem v).mpr (Or.inr List.mem_cons_self))
      cases x with
      | true => exact Or.inl ⟨⟨hext, hx⟩, hmem⟩
      | false => exact Or.inr ⟨⟨hext, hx⟩, hmem⟩

theorem nodup_completions (fresh : ∀ v ∈ vs, v ∉ a) (nodup : vs.Nodup) :
    (a.completions vs).Nodup := by
  induction vs generalizing a with
  | nil => exact List.nodup_singleton a
  | cons v vs ih =>
    have fresh' : ∀ x, ∀ w ∈ vs, w ∉ a.insert v x := fun x => notMem_insert fresh nodup
    have nodup' : vs.Nodup := (List.nodup_cons.mp nodup).2
    have value : ∀ {x b}, b ∈ completions (a.insert v x) vs → b[v]? = some x := by
      intro x b hc
      have hext := ((mem_completions (fresh' x) nodup').mp hc).1
      exact ((extendsTo_insert_iff (fresh v List.mem_cons_self)).mp hext).2
    rw [completions]
    refine List.nodup_append.mpr ⟨ih (fresh' true) nodup', ih (fresh' false) nodup', ?_⟩
    rintro b hc d hd rfl
    have := (value hc).symm.trans (value hd)
    cases this

/-- **A truth table lists the completions of the empty assignment.** -/
theorem completions_empty (vs : List Variable) : completions ∅ vs = truthTable vs := by
  have main : ∀ (l : List Variable) (as : List Assignment),
      l.foldl (fun as v => as.flatMap fun a => [a.insert v true, a.insert v false]) as =
        as.flatMap fun a => a.completions l := by
    intro l
    induction l with
    | nil => exact fun as => (List.flatMap_singleton' as).symm
    | cons v l ih =>
      intro as
      rw [List.foldl_cons, ih, List.flatMap_assoc]
      simp only [List.flatMap_cons, List.flatMap_nil, List.append_nil, completions]
  rw [truthTable, main, List.flatMap_singleton]

variable {vs : Vocabulary}

theorem nodup_onVocabulary : (onVocabulary vs).Nodup := by
  rw [onVocabulary, ← completions_empty]
  exact nodup_completions (fun _ _ => Std.ExtTreeMap.not_mem_empty) (nodup_toList vs)

theorem extendsTo_empty : ExtendsTo ∅ a := fun v x h => by simp at h

/-- **The assignments listed for a vocabulary are those on it.** -/
theorem mem_onVocabulary : a ∈ onVocabulary vs ↔ a.IsOn vs := by
  rw [onVocabulary, ← completions_empty, mem_completions
    (fun _ _ => Std.ExtTreeMap.not_mem_empty) (nodup_toList vs), and_iff_right extendsTo_empty]
  refine forall_congr' fun v => ?_
  rw [Std.ExtTreeSet.mem_toList, or_iff_right Std.ExtTreeMap.not_mem_empty]

end Assignment

/-! ## What a frontier leads to -/

/-- The models that a branch leads to: those completions that settle the formula as true. -/
def Branch.models (p : Formula) (a : Assignment) (pending : List Variable) : List Assignment :=
  (a.completions pending).filter fun c => p.value? c = some true

theorem Branch.models_nil (p : Formula) (a : Assignment) :
    Branch.models p a [] = (if p.value? a = some true then some a else none).toList := by
  by_cases h : p.value? a = some true <;> simp [Branch.models, Assignment.completions, h]

theorem Branch.models_cons (p : Formula) (a : Assignment) (v : Variable) (vs : List Variable) :
    Branch.models p a (v :: vs) =
      Branch.models p (a.insert v true) vs ++ Branch.models p (a.insert v false) vs :=
  List.filter_append _ _

/-- The branch knows the settled value of the formula, and has yet to assign what is pending. -/
structure Branch.Sound (p : Formula) (b : Branch) : Prop where
  value_eq : b.value = p.value? b.assignment
  fresh : ∀ v ∈ b.pending, v ∉ b.assignment
  nodup : b.pending.Nodup

/-- Where the formula is settled as false, no completion is a model. -/
theorem Branch.models_eq_nil {p : Formula} {a : Assignment} {pending : List Variable}
    (fresh : ∀ v ∈ pending, v ∉ a) (nodup : pending.Nodup) (h : p.value? a = some false) :
    Branch.models p a pending = [] := by
  refine List.filter_eq_nil_iff.mpr fun c hc => ?_
  rw [Formula.value?_mono ((Assignment.mem_completions fresh nodup).mp hc).1 h]
  simp

namespace Frontier

open scoped List

variable {promise : Assignment → UInt64} {p : Formula} {front front' : Frontier} {a : Assignment}
  {v : Variable} {vs pending : List Variable} {found : Option Assignment}

/-- The models that the branches of a frontier lead to. -/
def remaining (p : Formula) (front : Frontier) : List Assignment :=
  front.flatMap fun b => Branch.models p b.assignment b.pending

theorem remaining_cons (b : Branch) (front : Frontier) :
    remaining p (b :: front) = Branch.models p b.assignment b.pending ++ remaining p front :=
  List.flatMap_cons

/-- Every branch of the frontier is sound. -/
def Sound (p : Formula) (front : Frontier) : Prop := ∀ b ∈ front, b.Sound p

theorem sound_push (fresh : ∀ v ∈ pending, v ∉ a) (nodup : pending.Nodup) (h : Sound p front) :
    Sound p (push promise p a pending front) := by
  unfold push
  split
  · exact h
  · intro b hb
    rcases List.mem_cons.mp ((insertRanked_perm _ _).mem_iff.mp hb) with rfl | hb
    · exact ⟨rfl, fresh, nodup⟩
    · exact h b hb

/-- A pushed branch contributes the models that it leads to, also where it is dropped. -/
theorem remaining_push (fresh : ∀ v ∈ pending, v ∉ a) (nodup : pending.Nodup) :
    (remaining p (push promise p a pending front)).Perm
      (Branch.models p a pending ++ remaining p front) := by
  unfold push
  split
  · rename_i h
    rw [Branch.models_eq_nil fresh nodup h, List.nil_append]
  · exact (insertRanked_perm _ _).flatMap_right _

/-- **One step** delivers a model exactly if it takes it from what remains. -/
theorem remaining_of_step (h : Sound p front) (hs : step promise p front = some (found, front')) :
    Sound p front' ∧ (remaining p front).Perm (found.toList ++ remaining p front') := by
  match front with
  | [] => cases hs
  | ⟨a, [], value, rank⟩ :: rest =>
    cases hs
    obtain ⟨hb, hrest⟩ := List.forall_mem_cons.mp h
    refine ⟨hrest, ?_⟩
    have hv : value = p.value? a := hb.value_eq
    rw [remaining_cons, Branch.models_nil, hv]
  | ⟨a, v :: vs, value, rank⟩ :: rest =>
    cases hs
    obtain ⟨hb, hrest⟩ := List.forall_mem_cons.mp h
    have fresh : ∀ x, ∀ w ∈ vs, w ∉ a.insert v x :=
      fun x => Assignment.notMem_insert hb.fresh hb.nodup
    have nodup : vs.Nodup := (List.nodup_cons.mp hb.nodup).2
    refine ⟨sound_push (fresh false) nodup (sound_push (fresh true) nodup hrest), ?_⟩
    calc
      remaining p (⟨a, v :: vs, value, rank⟩ :: rest) =
          Branch.models p (a.insert v true) vs ++ Branch.models p (a.insert v false) vs ++
            remaining p rest := by
        rw [remaining_cons, Branch.models_cons]
      _ ~ Branch.models p (a.insert v false) vs ++
            (Branch.models p (a.insert v true) vs ++ remaining p rest) := by
        rw [← List.append_assoc]
        exact List.perm_append_comm.append_right _
      _ ~ Branch.models p (a.insert v false) vs ++
            remaining p (push promise p (a.insert v true) vs rest) :=
        ((remaining_push (fresh true) nodup).append_left _).symm
      _ ~ remaining p (split promise p a v vs rest) := (remaining_push (fresh false) nodup).symm

/-- **A run delivers what remains**, each model once. -/
theorem models_perm (h : Sound p front) : (models promise p front).Perm (remaining p front) := by
  fun_induction models promise p front with
  | case1 front hs =>
    cases front with
    | nil => exact .rfl
    | cons b rest => obtain ⟨a, _ | ⟨v, vs⟩, value, rank⟩ := b <;> cases hs
  | case2 front found front' hs ih =>
    obtain ⟨h', perm⟩ := remaining_of_step h hs
    exact ((ih h').append_left _).trans perm.symm

theorem sound_root {order : List Variable} (h : order.Nodup) :
    Sound p (root promise p order) :=
  sound_push (fun _ _ => Std.ExtTreeMap.not_mem_empty) h fun _ hb => absurd hb List.not_mem_nil

/-- A run from the root delivers the completions of nothing that settle the formula as true. -/
theorem models_root_perm {order : List Variable} (h : order.Nodup) :
    (models promise p (root promise p order)).Perm (Branch.models p ∅ order) := by
  have perm : (remaining p (root promise p order)).Perm (Branch.models p ∅ order ++ []) :=
    remaining_push (fun _ _ => Std.ExtTreeMap.not_mem_empty) h
  rw [List.append_nil] at perm
  exact (models_perm (sound_root h)).trans perm

/-- A search that finds no further model has no branches left. -/
theorem next_eq_nil (h : (next promise p front).1 = none) : (next promise p front).2 = [] := by
  fun_induction next promise p front with
  | case1 => rfl
  | case2 => cases h
  | case3 _ _ _ ih => exact ih h

end Frontier

/-! ## The models of a formula -/

/-- The list holds every model of the formula once, and nothing else. -/
structure Formula.ListsModels (p : Formula) (as : List Assignment) : Prop where
  nodup : as.Nodup
  mem_iff : ∀ a, a ∈ as ↔ a.domain = p.vocabulary.toList ∧ p.evaluate a = .ok true

theorem Frontier.listsModels (promise : Assignment → UInt64) (p : Formula) {order : List Variable}
    (each : order.Perm p.vocabulary.toList) :
    p.ListsModels (models promise p (root promise p order)) := by
  have nodup : order.Nodup := each.nodup_iff.mpr (nodup_toList _)
  have fresh : ∀ v ∈ order, v ∉ (∅ : Assignment) := fun _ _ => Std.ExtTreeMap.not_mem_empty
  have perm : (models promise p (root promise p order)).Perm _ := models_root_perm nodup
  refine ⟨perm.nodup_iff.mpr ((Assignment.nodup_completions fresh nodup).filter _), fun a => ?_⟩
  rw [perm.mem_iff, Branch.models, List.mem_filter, Assignment.mem_completions fresh nodup,
    decide_eq_true_iff, ← Assignment.isOn_iff_domain_eq]
  have on : (Assignment.ExtendsTo ∅ a ∧ ∀ v, v ∈ a ↔ v ∈ (∅ : Assignment) ∨ v ∈ order) ↔
      a.IsOn p.vocabulary := by
    rw [and_iff_right Assignment.extendsTo_empty]
    refine forall_congr' fun v => ?_
    rw [each.mem_iff, Std.ExtTreeSet.mem_toList, or_iff_right Std.ExtTreeMap.not_mem_empty]
  rw [on]
  exact ⟨fun h => (Formula.isModel_iff_value? h.1).mpr h.2,
    fun h => ⟨h.1, (Formula.isModel_iff_value? h.1).mp h⟩⟩

namespace Formula

variable {p : Formula} {a : Assignment}

theorem listsModels (p : Formula) : p.ListsModels p.models :=
  Frontier.listsModels p.promise p p.branchingOrder_perm

theorem nodup_models (p : Formula) : p.models.Nodup := p.listsModels.nodup

theorem mem_models : a ∈ p.models ↔ p.IsModel a := by
  rw [p.listsModels.mem_iff, ← Assignment.isOn_iff_domain_eq]
  rfl

end Formula

/-- Asked for models until there are none, an enumeration yields those of its frontier. -/
theorem Enumeration.drain_eq (e : Enumeration) :
    e.drain false =
      (e.front.models e.formula.promise e.formula, { e with front := [] }) := by
  fun_induction drain false e with
  | case1 e e' h =>
    simp only [next, Bool.false_eq_true, if_false, Prod.mk.injEq] at h
    obtain ⟨hn, rfl⟩ := h
    rw [Frontier.models_eq_next, hn, Frontier.next_eq_nil hn, Frontier.models_of_step_eq_none rfl]
    rfl
  | case2 e a e' h rest e'' hd ih =>
    simp only [next, Bool.false_eq_true, if_false, Prod.mk.injEq] at h
    obtain ⟨hn, rfl⟩ := h
    rw [hd] at ih
    obtain ⟨rfl, rfl⟩ := Prod.mk.inj ih
    have first := Frontier.models_eq_next e.formula.promise e.formula e.front
    rw [hn] at first
    rw [first]
    rfl

/-- **Enumeration is exact.** Asking for models until there are none ends with every model of the
formula delivered once: every assignment to exactly its variables under which it evaluates to true.
The same holds for any measure of promise and for any order in which the variables are assigned. -/
theorem Formula.models_exact (p : Formula) :
    (∃ done, p.enumerate.drain false = (p.models, done) ∧
      done.next false = (none, done) ∧ done.stopped = false) ∧
    p.ListsModels p.models ∧
    ∀ (promise : Assignment → UInt64) (order : List Variable), order.Perm p.vocabulary.toList →
      p.ListsModels (Frontier.models promise p (.root promise p order)) := by
  refine ⟨⟨{ p.enumerate with front := [] }, Enumeration.drain_eq p.enumerate, ?_, rfl⟩,
    p.listsModels, fun promise _ each => Frontier.listsModels promise p each⟩
  unfold Enumeration.next
  rw [Frontier.next]
  rfl

/-- An exclusive disjunction searched from its last variable, with no preference among branches. -/
theorem models_exact_xor :
    ["q", "p"].Perm (Formula.binary .xor (.var "p") (.var "q")).vocabulary.toList ∧
    (Formula.binary .xor (.var "p") (.var "q")).ListsModels
      (Frontier.models (fun _ => 0) (.binary .xor (.var "p") (.var "q"))
        (.root (fun _ => 0) (.binary .xor (.var "p") (.var "q")) ["q", "p"])) :=
  have perm : ["q", "p"].Perm (Formula.binary .xor (.var "p") (.var "q")).vocabulary.toList := by
    decide +kernel
  ⟨perm, (Formula.models_exact _).2.2 _ _ perm⟩

end BeliefRevision
