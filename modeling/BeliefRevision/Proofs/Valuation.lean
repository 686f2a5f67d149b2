import Mathlib.Data.List.Nodup
import BeliefRevision.Assignment.Basic

/-!
# Valuations

A valuation gives a truth value to every variable there is. Assignments are their finite parts: a
valuation completes an assignment if it gives the same values (`CompletesTo`), and cutting it down
to a vocabulary gives an assignment on exactly this vocabulary (`Valuation.on`, `IsOn`).

* `isOn_iff_domain_eq`: the assignments on a vocabulary are those whose domain lists it.
* `eq_on_of_completesTo`: an assignment is determined by its vocabulary and any one completion.
-/

namespace BeliefRevision

/-- Truth values for all variables. -/
abbrev Valuation := Variable → Bool

theorem mem_vocabulary_ofList {vs : List Variable} {v : Variable} :
    v ∈ (.ofList vs : Vocabulary) ↔ v ∈ vs := by
  rw [Std.ExtTreeSet.mem_ofList, List.contains_iff_mem]

theorem nodup_of_ordered {α : Type} {cmp : α → α → Ordering} [Std.ReflCmp cmp] {as : List α}
    (h : as.Pairwise (cmp · · = .lt)) : as.Nodup := by
  refine h.imp fun {a b} hlt heq => ?_
  have self : cmp b b = .eq := Std.ReflCmp.compare_self
  rw [heq, self] at hlt
  cases hlt

/-- Lists in order are the same if they have the same members. -/
theorem eq_of_ordered {α : Type} {cmp : α → α → Ordering} [Std.OrientedCmp cmp] {as bs : List α}
    (ha : as.Pairwise (cmp · · = .lt)) (hb : bs.Pairwise (cmp · · = .lt))
    (same : ∀ a, a ∈ as ↔ a ∈ bs) : as = bs := by
  have perm : as.Perm bs :=
    (List.perm_ext_iff_of_nodup (nodup_of_ordered ha) (nodup_of_ordered hb)).mpr same
  refine perm.eq_of_pairwise (fun a b _ _ hab hba => ?_) ha hb
  exact absurd hba (Std.OrientedCmp.not_lt_of_lt hab)

theorem nodup_toList (vs : Vocabulary) : vs.toList.Nodup :=
  nodup_of_ordered Std.ExtTreeSet.ordered_toList

/-- A map and a vocabulary with the same variables list them alike. -/
theorem keys_eq_toList {α : Type} {m : Std.ExtTreeMap Variable α} {vs : Vocabulary}
    (h : ∀ v, v ∈ m ↔ v ∈ vs) : m.keys = vs.toList := by
  refine eq_of_ordered Std.ExtTreeMap.ordered_keys Std.ExtTreeSet.ordered_toList
    fun v => ?_
  rw [Std.ExtTreeMap.mem_keys, Std.ExtTreeSet.mem_toList, h v]

theorem size_eq_of_mem_iff {α : Type} {m : Std.ExtTreeMap Variable α} {vs : Vocabulary}
    (h : ∀ v, v ∈ m ↔ v ∈ vs) : m.size = vs.size := by
  rw [← Std.ExtTreeMap.length_keys, keys_eq_toList h, Std.ExtTreeSet.length_toList]

/-- The values that a valuation gives to the variables of a vocabulary. -/
def Valuation.on (f : Valuation) (vs : Vocabulary) : Assignment :=
  vs.toList.foldr (fun v a => a.insert v (f v)) ∅

namespace Assignment

/-- The second assignment gives every value that the first one gives. -/
def ExtendsTo (a b : Assignment) : Prop :=
  ∀ (v : Variable) (x : Bool), a[v]? = some x → b[v]? = some x

/-- The valuation gives every value that the assignment gives. -/
def CompletesTo (a : Assignment) (f : Valuation) : Prop :=
  ∀ (v : Variable) (x : Bool), a[v]? = some x → f v = x

/-- The assignment gives values to the variables of the vocabulary and to no others. -/
def IsOn (a : Assignment) (vs : Vocabulary) : Prop := ∀ v, v ∈ a ↔ v ∈ vs

/-- The completion of an assignment that makes all other variables false. -/
def valuation (a : Assignment) : Valuation := fun v => a[v]?.getD false

variable {a b c : Assignment} {f : Valuation} {vs : Vocabulary} {v w : Variable} {x : Bool}

/-! ## Reading assignments -/

theorem getElem?_insert_eq : (a.insert v x)[w]? = if v = w then some x else a[w]? := by
  rw [Std.ExtTreeMap.getElem?_insert]
  simp only [Std.LawfulEqOrd.compare_eq_iff_eq]

theorem mem_iff_exists : v ∈ a ↔ ∃ x, a[v]? = some x := by
  rw [Std.ExtTreeMap.mem_iff_isSome_getElem?, Option.isSome_iff_exists]

theorem getElem?_eq_valuation (h : v ∈ a) : a[v]? = some (a.valuation v) := by
  obtain ⟨x, hx⟩ := mem_iff_exists.mp h
  rw [valuation, hx]
  rfl

theorem mem_domain : v ∈ a.domain ↔ v ∈ a := Std.ExtTreeMap.mem_keys

theorem isOn_iff_domain_eq : a.IsOn vs ↔ a.domain = vs.toList := by
  refine ⟨keys_eq_toList, fun h v => ?_⟩
  rw [← mem_domain, h, Std.ExtTreeSet.mem_toList]

/-- Assignments have the same domain if they give values to the same variables. -/
theorem domain_eq_iff : a.domain = b.domain ↔ ∀ v, v ∈ a ↔ v ∈ b := by
  constructor
  · intro h v
    rw [← mem_domain, h, mem_domain]
  · intro h
    exact eq_of_ordered Std.ExtTreeMap.ordered_keys Std.ExtTreeMap.ordered_keys fun v =>
      mem_domain.trans ((h v).trans mem_domain.symm)

/-! ## Extensions and completions -/

theorem ExtendsTo.refl (a : Assignment) : a.ExtendsTo a := fun _ _ h => h

theorem ExtendsTo.trans (hab : a.ExtendsTo b) (hbc : b.ExtendsTo c) : a.ExtendsTo c :=
  fun v x h => hbc v x (hab v x h)

/-- Giving a value to a new variable extends an assignment. -/
theorem extendsTo_insert (h : v ∉ a) : a.ExtendsTo (a.insert v x) := by
  intro w y hw
  rw [getElem?_insert_eq, if_neg ?_]
  · exact hw
  · rintro rfl
    exact h (mem_iff_exists.mpr ⟨y, hw⟩)

theorem extendsTo_insert_iff (h : v ∉ a) :
    ExtendsTo (a.insert v x) b ↔ a.ExtendsTo b ∧ b[v]? = some x := by
  constructor
  · intro hb
    exact ⟨(extendsTo_insert h).trans hb, hb v x (by rw [getElem?_insert_eq, if_pos rfl])⟩
  · rintro ⟨hab, hv⟩ w y hw
    rw [getElem?_insert_eq] at hw
    split at hw
    · rename_i e
      rw [← e, ← hw, hv]
    · exact hab w y hw

/-- An assignment that gives values to no further variables is the same. -/
theorem ExtendsTo.eq (h : a.ExtendsTo b) (sub : ∀ v, v ∈ b → v ∈ a) : a = b := by
  refine Std.ExtTreeMap.ext_getElem? fun v => ?_
  cases hb : b[v]? with
  | none =>
    cases ha : a[v]? with
    | none => rfl
    | some x => rw [h v x ha] at hb; cases hb
  | some x =>
    obtain ⟨y, hy⟩ := mem_iff_exists.mp (sub v (mem_iff_exists.mpr ⟨x, hb⟩))
    rw [hy, ← h v y hy, hb]

theorem completesTo_valuation (a : Assignment) : a.CompletesTo a.valuation := by
  intro v x h
  rw [valuation, h]
  rfl

theorem completesTo_insert_iff (fresh : v ∉ a) :
    CompletesTo (a.insert v x) f ↔ a.CompletesTo f ∧ f v = x := by
  constructor
  · intro h
    refine ⟨fun w y hw => ?_, h v x (by rw [getElem?_insert_eq, if_pos rfl])⟩
    exact h w y (extendsTo_insert fresh w y hw)
  · rintro ⟨h, hv⟩ w y hw
    rw [getElem?_insert_eq] at hw
    split at hw
    · next same => rw [← same, hv, Option.some.inj hw]
    · exact h w y hw

/-- An assignment that gives values to all variables of another one extends it if its completion
completes that one. -/
theorem extendsTo_iff_completesTo (given : ∀ v ∈ a, v ∈ b) :
    a.ExtendsTo b ↔ a.CompletesTo b.valuation := by
  refine ⟨fun h v x hv => b.completesTo_valuation v x (h v x hv), fun h v x hv => ?_⟩
  rw [getElem?_eq_valuation (given v (mem_iff_exists.mpr ⟨x, hv⟩)), h v x hv]

/-! ## Assignments on a vocabulary -/

theorem getElem?_on (f : Valuation) (vs : Vocabulary) (v : Variable) :
    (f.on vs)[v]? = if v ∈ vs then some (f v) else none := by
  have main : ∀ l : List Variable,
      (l.foldr (fun v a => a.insert v (f v)) (∅ : Assignment))[v]? =
        if v ∈ l then some (f v) else none := by
    intro l
    induction l with
    | nil => simp
    | cons w l ih =>
      rw [List.foldr_cons, getElem?_insert_eq, ih]
      by_cases h : w = v
      · subst h
        simp
      · simp [h, Ne.symm h]
  rw [Valuation.on, main]
  simp only [Std.ExtTreeSet.mem_toList]

theorem isOn_on (f : Valuation) (vs : Vocabulary) : (f.on vs).IsOn vs := by
  intro v
  rw [mem_iff_exists, getElem?_on]
  by_cases h : v ∈ vs <;> simp [h]

theorem completesTo_on_iff {g : Valuation} : (f.on vs).CompletesTo g ↔ ∀ v ∈ vs, f v = g v := by
  constructor
  · intro h v hv
    exact (h v (f v) (by rw [getElem?_on, if_pos hv])).symm
  · intro h v x hx
    rw [getElem?_on] at hx
    split at hx
    · next hv => rw [← h v hv, Option.some.inj hx]
    · cases hx

theorem completesTo_on (f : Valuation) (vs : Vocabulary) : (f.on vs).CompletesTo f :=
  completesTo_on_iff.mpr fun _ _ => rfl

/-- **An assignment is settled by its vocabulary and one completion.** -/
theorem eq_on_of_completesTo (ha : a.IsOn vs) (hf : a.CompletesTo f) : a = f.on vs := by
  refine Std.ExtTreeMap.ext_getElem? fun v => ?_
  rw [getElem?_on]
  by_cases hv : v ∈ vs
  · obtain ⟨x, hx⟩ := mem_iff_exists.mp ((ha v).mpr hv)
    rw [if_pos hv, hf v x hx, hx]
  · rw [if_neg hv]
    cases hx : a[v]? with
    | none => rfl
    | some x => exact absurd ((ha v).mp (mem_iff_exists.mpr ⟨x, hx⟩)) hv

end Assignment

end BeliefRevision
