import BeliefRevision.Proofs.Projection

/-!
# What the questions ask of assignments

The questions of `Model.Query` are put to searches over several vocabularies: that of one formula,
of a conjunction, or of a conjunction with a model. Their answers all speak of the assignments to
the variables of both formulas together. Truth is a matter of these variables alone, so that such
assignments stand for all valuations (`Valuation.forall_isOn_iff`).

The first formula is satisfied by the second one if it says what the second one says about its
variables (`isSatisfiedBy_iff`). In terms of assignments, its models are those that make the second
one true, restricted to its variables (`Assignment.restrict`).

* **`questions_answered`**: validity, entailment and satisfaction over the joint vocabulary.
-/

namespace BeliefRevision

/-! ## Restricting assignments -/

namespace Assignment

variable {a b : Assignment} {f : Valuation} {us vs : Vocabulary} {v : Variable}

/-- The assignment cut down to the variables of a vocabulary. -/
def restrict (a : Assignment) (vs : Vocabulary) : Assignment := a.filter fun v _ => vs.contains v

theorem getElem?_restrict : (a.restrict vs)[v]? = if v ∈ vs then a[v]? else none := by
  rw [restrict, Std.ExtTreeMap.getElem?_filter']
  by_cases h : v ∈ vs
  · rw [if_pos h, Std.ExtTreeSet.mem_iff_contains.mp h]
    cases a[v]? <;> rfl
  · rw [if_neg h, Bool.eq_false_iff.mpr (mt Std.ExtTreeSet.mem_iff_contains.mpr h)]
    cases a[v]? <;> rfl

theorem restrict_extendsTo (a : Assignment) (vs : Vocabulary) : (a.restrict vs).ExtendsTo a := by
  intro v x hx
  rw [getElem?_restrict] at hx
  split at hx
  · exact hx
  · cases hx

theorem mem_restrict : v ∈ a.restrict vs ↔ v ∈ vs ∧ v ∈ a := by
  rw [mem_iff_exists, mem_iff_exists, getElem?_restrict]
  by_cases h : v ∈ vs <;> simp [h]

/-- Restricting an assignment takes back an extension. -/
theorem restrict_eq_iff (hb : b.IsOn vs) : a.restrict vs = b ↔ b.ExtendsTo a := by
  constructor
  · rintro rfl
    exact a.restrict_extendsTo vs
  · intro extension
    have within : b.ExtendsTo (a.restrict vs) := fun v x hx => by
      rw [getElem?_restrict, if_pos ((hb v).mp (mem_iff_exists.mpr ⟨x, hx⟩)), extension v x hx]
    exact (within.eq fun v hv => (hb v).mpr (mem_restrict.mp hv).1).symm

theorem valuation_on (h : v ∈ vs) : (f.on vs).valuation v = f v :=
  (completesTo_on_iff.mp (completesTo_valuation (f.on vs)) v h).symm

/-- Completing an assignment on a vocabulary is agreeing with it there. -/
theorem completesTo_iff_agree (ha : a.IsOn vs) :
    a.CompletesTo f ↔ ∀ v ∈ vs, a.valuation v = f v := by
  constructor
  · intro h v hv
    exact (h v _ (getElem?_eq_valuation ((ha v).mpr hv))).symm
  · intro agree v x hx
    rw [← agree v ((ha v).mp (mem_iff_exists.mpr ⟨x, hx⟩)), completesTo_valuation a v x hx]

/-- So is extending it to a larger vocabulary. -/
theorem extendsTo_iff_agree (ha : a.IsOn us) (hb : b.IsOn vs) (sub : ∀ v ∈ us, v ∈ vs) :
    a.ExtendsTo b ↔ ∀ v ∈ us, a.valuation v = b.valuation v := by
  rw [extendsTo_iff_completesTo fun v hv => (hb v).mpr (sub v ((ha v).mp hv)),
    completesTo_iff_agree ha]

/-- The restrictions of some assignments on a vocabulary are what can be extended to these. -/
theorem mem_image_restrict_iff {P : Assignment → Prop} (sub : ∀ v ∈ us, v ∈ vs) :
    b ∈ (fun a => restrict a us) '' {a | a.IsOn vs ∧ P a} ↔
      b.IsOn us ∧ ∃ a, IsOn a vs ∧ b.ExtendsTo a ∧ P a := by
  constructor
  · rintro ⟨a, ⟨ha, holds⟩, rfl⟩
    have isOn : (a.restrict us).IsOn us := fun v =>
      mem_restrict.trans (and_iff_left_of_imp fun hv => (ha v).mpr (sub v hv))
    exact ⟨isOn, a, ha, a.restrict_extendsTo us, holds⟩
  · rintro ⟨hb, a, ha, extension, holds⟩
    exact ⟨a, ⟨ha, holds⟩, (restrict_eq_iff hb).mpr extension⟩

end Assignment

/-- The assignments on a vocabulary stand for all valuations, as far as a condition on these
variables goes. -/
theorem Valuation.forall_isOn_iff {vs : Vocabulary} {P : Valuation → Prop}
    (reads : ∀ f g, (∀ v ∈ vs, f v = g v) → (P f ↔ P g)) :
    (∀ a : Assignment, a.IsOn vs → P a.valuation) ↔ ∀ f, P f := by
  refine ⟨fun h f => ?_, fun h a _ => h a.valuation⟩
  exact (reads _ f fun v hv => Assignment.valuation_on hv).mp
    (h (f.on vs) (Assignment.isOn_on f vs))

namespace Formula

variable {p q : Formula} {a m : Assignment} {f g : Valuation} {us vs : Vocabulary}

/-- Possibilities are what can be extended to an assignment that makes the formula true. -/
theorem IsOver.valuation_mem_possibilities (h : q.IsOver vs) (hm : m.IsOn us)
    (sub : ∀ v ∈ us, v ∈ vs) : m.valuation ∈ q.possibilities us ↔
      ∃ a, a.IsOn vs ∧ m.ExtendsTo a ∧ q.evaluate a = .ok true := by
  constructor
  · rintro ⟨g, agree, hg⟩
    have isOn := Assignment.isOn_on g vs
    refine ⟨g.on vs, isOn, (Assignment.extendsTo_iff_agree hm isOn sub).mpr fun v hv => ?_, ?_⟩
    · rw [agree v hv, Assignment.valuation_on (sub v hv)]
    · rw [h.evaluate_on, hg]
  · rintro ⟨a, ha, extension, evaluates⟩
    exact ⟨a.valuation, (Assignment.extendsTo_iff_agree hm ha sub).mp extension,
      (h.evaluate_eq_true_iff ha).mp evaluates⟩

/-- **A formula is satisfied by another one** if it says just what this one says about its
variables. -/
theorem isSatisfiedBy_iff :
    p.isSatisfiedBy q = true ↔ ∀ f, p.holds f = true ↔ f ∈ q.possibilities p.vocabulary := by
  have joint (m : Assignment) :
      (m.toFormula.and q).isSatisfiable = true ↔ ∃ g, m.CompletesTo g ∧ q.holds g = true := by
    simp only [isSatisfiable_iff, holds_and, Assignment.holds_toFormula]
  rw [isSatisfiedBy, Bool.and_eq_true, entails_iff, List.all_eq_true]
  constructor
  · rintro ⟨entails, all⟩ f
    constructor
    · intro hf
      obtain ⟨g, completes, hg⟩ := (joint _).mp (all _ (mem_models.mpr (isModel_on_iff.mpr hf)))
      exact ⟨g, Assignment.completesTo_on_iff.mp completes, hg⟩
    · rintro ⟨g, agree, hg⟩
      rw [p.isOver_vocabulary.holds_eq agree]
      exact entails g hg
  · intro same
    refine ⟨fun f hf => (same f).mpr (mem_possibilities_of_holds hf), fun m hm => ?_⟩
    have model := mem_models.mp hm
    obtain ⟨g, agree, hg⟩ := (same _).mp (model.holds m.completesTo_valuation)
    exact (joint m).mpr ⟨g, (Assignment.completesTo_iff_agree model.1).mpr agree, hg⟩

/-- What a formula says about a vocabulary depends on the values there alone. -/
theorem mem_possibilities_congr (agree : ∀ v ∈ vs, f v = g v) :
    f ∈ p.possibilities vs ↔ g ∈ p.possibilities vs :=
  exists_congr fun h => and_congr_left fun _ => forall₂_congr fun v hv => by rw [agree v hv]

/-- **The questions are answered rightly**, over the assignments to the variables of both formulas.
A tautology is true under all of them. A formula entails another one if this one is true wherever
the first one is. A formula is satisfied by another one if restricting the assignments that make
this one true gives its models: it is then true where its own variables can be extended so that the
other one is true. -/
theorem questions_answered (p q : Formula) :
    (p.isTautology = true ↔
      ∀ a, Assignment.IsOn a (p.vocabulary ∪ q.vocabulary) → p.evaluate a = .ok true) ∧
    (p.entails q = true ↔ ∀ a, Assignment.IsOn a (p.vocabulary ∪ q.vocabulary) →
      p.evaluate a = .ok true → q.evaluate a = .ok true) ∧
    (p.isSatisfiedBy q = true ↔
      (fun a => Assignment.restrict a p.vocabulary) ''
        {a | a.IsOn (p.vocabulary ∪ q.vocabulary) ∧ q.evaluate a = .ok true} =
          {m | m ∈ p.models}) ∧
    (p.isSatisfiedBy q = true ↔ ∀ m, Assignment.IsOn m p.vocabulary →
      (p.evaluate m = .ok true ↔ ∃ a, Assignment.IsOn a (p.vocabulary ∪ q.vocabulary) ∧
        m.ExtendsTo a ∧ q.evaluate a = .ok true)) := by
  have sub : ∀ v ∈ p.vocabulary, v ∈ p.vocabulary ∪ q.vocabulary := fun v hv =>
    Std.ExtTreeSet.mem_union_iff.mpr (Or.inl hv)
  have left : p.IsOver (p.vocabulary ∪ q.vocabulary) := fun v hv => sub v (mem_vocabulary.mpr hv)
  have right : q.IsOver (p.vocabulary ∪ q.vocabulary) := fun v hv =>
    Std.ExtTreeSet.mem_union_iff.mpr (Or.inr (mem_vocabulary.mpr hv))
  have satisfied : p.isSatisfiedBy q = true ↔ ∀ m, Assignment.IsOn m p.vocabulary →
      (p.evaluate m = .ok true ↔ ∃ a, Assignment.IsOn a (p.vocabulary ∪ q.vocabulary) ∧
        m.ExtendsTo a ∧ q.evaluate a = .ok true) := by
    rw [isSatisfiedBy_iff, ← Valuation.forall_isOn_iff fun f g agree => ?_]
    · refine forall₂_congr fun m hm => ?_
      rw [p.isOver_vocabulary.evaluate_eq_true_iff hm, right.valuation_mem_possibilities hm sub]
    · rw [p.isOver_vocabulary.holds_eq agree, mem_possibilities_congr agree]
  refine ⟨?_, ?_, ?_, satisfied⟩
  · rw [isTautology_iff, ← Valuation.forall_isOn_iff fun f g agree => by rw [left.holds_eq agree]]
    exact forall₂_congr fun a ha => (left.evaluate_eq_true_iff ha).symm
  · rw [entails_iff, ← Valuation.forall_isOn_iff fun f g agree => by
      rw [left.holds_eq agree, right.holds_eq agree]]
    refine forall₂_congr fun a ha => ?_
    rw [left.evaluate_eq_true_iff ha, right.evaluate_eq_true_iff ha]
  · rw [satisfied, Set.ext_iff]
    refine forall_congr' fun m => ?_
    rw [Assignment.mem_image_restrict_iff sub, Set.mem_ofPred_eq, mem_models, IsModel,
      and_congr_right_iff]
    exact imp_congr_right fun _ => iff_comm

/-- A disjunction is satisfied by one that says more about another variable, and nothing else. -/
theorem questions_answered_disjunction :
    ((var "p").or (var "r")).isSatisfiedBy
      (((var "p").and (var "q")).or ((var "r").and (not (var "q")))) = true ∧
    (fun a => Assignment.restrict a ((var "p").or (var "r")).vocabulary) ''
      {a | a.IsOn (((var "p").or (var "r")).vocabulary ∪
            (((var "p").and (var "q")).or ((var "r").and (not (var "q")))).vocabulary) ∧
          (((var "p").and (var "q")).or ((var "r").and (not (var "q")))).evaluate a = .ok true} =
        {m | m ∈ ((var "p").or (var "r")).models} := by
  have satisfied : ((var "p").or (var "r")).isSatisfiedBy
      (((var "p").and (var "q")).or ((var "r").and (not (var "q")))) = true := by decide +kernel
  exact ⟨satisfied, (questions_answered _ _).2.2.1.mp satisfied⟩

end Formula

end BeliefRevision
