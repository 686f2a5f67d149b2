import BeliefRevision.Proofs.Truth

/-!
# Settled values

`Formula.value?` settles the value of a formula under a partial assignment, connective by
connective. It is a sound reading of the assignment and an exact one where every variable has a
value; this is what lets the search for models drop branches.

* `value?_mono`: a settled value stays the same when the assignment is extended.
* `value?_eq_holds`: where all variables that occur have values, the value is settled as the truth
  under any completion.
-/

namespace BeliefRevision

namespace Junction

variable {j : Junction} {b : Bool} {os : List (Option Bool)}

theorem value?_eq_absorbing_iff : j.value? os = some j.absorbing ↔ some j.absorbing ∈ os := by
  unfold value?
  by_cases h : some j.absorbing ∈ os
  · simp [h]
  · rw [if_neg h]
    split <;> simp [h]

theorem value?_eq_not_absorbing_iff :
    j.value? os = some !j.absorbing ↔ ∀ o ∈ os, o = some !j.absorbing := by
  unfold value?
  by_cases h : some j.absorbing ∈ os
  · rw [if_pos h]
    refine ⟨fun hb => ?_, fun hall => ?_⟩
    · simp at hb
    · have := hall _ h
      simp at this
  · rw [if_neg h]
    simp

/-- A junction of settled operands is settled as its truth table says. -/
theorem value?_map_some (bs : List Bool) : j.value? (bs.map some) = some (j.value bs) := by
  unfold value
  split
  · rename_i h
    exact value?_eq_absorbing_iff.mpr (List.mem_map_of_mem h)
  · rename_i h
    refine value?_eq_not_absorbing_iff.mpr fun o ho => ?_
    obtain ⟨b, hb, rfl⟩ := List.mem_map.mp ho
    have hne : b ≠ j.absorbing := fun e => h (e ▸ hb)
    rw [Bool.eq_not.mpr hne]

end Junction

namespace Binary

variable {op : Binary} {b : Bool} {o o' : Option Bool}

/-- A binary connective is settled when all rows of its truth table that can be reached agree. -/
theorem value?_eq_some_iff :
    op.value? o o' = some b ↔ ∀ x ∈ outcomes o, ∀ y ∈ outcomes o', op.value x y = b := by
  cases op <;> rcases o with _ | _ | _ <;> rcases o' with _ | _ | _ <;> cases b <;> decide

/-- A value is among the outcomes of an operand unless the operand is settled otherwise. -/
theorem mem_outcomes_iff {x : Bool} : x ∈ outcomes o ↔ o ≠ some !x := by
  rcases o with _ | _ | _ <;> cases x <;> decide

theorem outcomes_subset {o o' : Option Bool} (h : ∀ x, o = some x → o' = some x) :
    outcomes o' ⊆ outcomes o := by
  cases o with
  | none => cases o' with
    | none => exact List.Subset.refl _
    | some x => cases x <;> simp [outcomes]
  | some x => rw [h x rfl]; exact List.Subset.refl _

end Binary

namespace Formula

variable {p : Formula} {ps : List Formula} {f : Valuation} {a b : Assignment} {x : Bool}

theorem values?_eq_map : values? a ps = ps.map (value? a) := by
  induction ps with
  | nil => rfl
  | cons p ps ih => rw [values?, ih, List.map_cons]

/-- **A settled value stays settled** however the assignment is extended. -/
theorem value?_mono (hab : a.ExtendsTo b) (h : p.value? a = some x) : p.value? b = some x := by
  induction p generalizing x with
  | var v => exact hab v x h
  | top => exact h
  | bot => exact h
  | not p ih =>
    rw [value?, Option.map_eq_some_iff] at h ⊢
    obtain ⟨y, hy, rfl⟩ := h
    exact ⟨y, ih hy, rfl⟩
  | join j ps ih =>
    rw [value?, values?_eq_map] at h ⊢
    by_cases hx : x = j.absorbing
    · subst hx
      rw [Junction.value?_eq_absorbing_iff, List.mem_map] at h ⊢
      obtain ⟨p, hp, hv⟩ := h
      exact ⟨p, hp, ih p hp hv⟩
    · rw [Bool.eq_not.mpr hx, Junction.value?_eq_not_absorbing_iff, List.forall_mem_map] at h ⊢
      exact fun p hp => ih p hp (h p hp)
  | binary op p q ihp ihq =>
    rw [value?, Binary.value?_eq_some_iff] at h ⊢
    intro y hy z hz
    have hy' := Binary.outcomes_subset (fun _ => ihp) hy
    have hz' := Binary.outcomes_subset (fun _ => ihq) hz
    exact h y hy' z hz'

/-- **Where every variable has a value, the formula is settled** as its truth. -/
theorem value?_eq_holds (h : ∀ v ∈ p.occurrences, a[v]? = some (f v)) :
    p.value? a = some (p.holds f) := by
  induction p with
  | var v => exact h v (List.mem_singleton.mpr rfl)
  | top => rfl
  | bot => rfl
  | not p ih =>
    rw [value?, ih h]
    rfl
  | join j ps ih =>
    have settled : ps.map (value? a) = (ps.map (holds f)).map some := by
      rw [List.map_map]
      exact List.map_congr_left fun p hp =>
        ih p hp fun v hv => h v (mem_occurrences_join.mpr ⟨p, hp, hv⟩)
    rw [value?, values?_eq_map, settled, Junction.value?_map_some, holds, holdsAll_eq_map]
  | binary op p q ihp ihq =>
    rw [value?, ihp fun v hv => h v (List.mem_append_left _ hv),
      ihq fun v hv => h v (List.mem_append_right _ hv), Binary.value?_eq_some_iff]
    intro y hy z hz
    rw [List.mem_singleton.mp hy, List.mem_singleton.mp hz, holds]

end Formula

end BeliefRevision
