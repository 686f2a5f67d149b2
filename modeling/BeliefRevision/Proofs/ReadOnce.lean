import BeliefRevision.Proofs.Query

/-!
# What partial assignments settle

A completion of an assignment for a formula extends it so that all variables of the formula have
values. A settled value is the value under every completion, it stays settled however the assignment
is extended, and every completion settles the formula (`settled_holds_in_completions`).

A value may hold in all completions without being settled, as `p and not p` shows: its operands are
read as if they could take their values independently. They can if no variable occurs twice
(`ReadOnce`), since completions chosen for each operand can then be grafted together
(`exists_joint_completion`). What a connective leaves open is left open by some rows of its truth
table (`Junction.value_map_getD`, `Binary.exists_row`), so each value that is not ruled out is taken
by some completion (`exists_completesTo_of_value?_ne`).

* **`settled_iff_in_completions`**: for formulas that read no variable twice, being settled is
  having the same value under every completion.
-/

namespace BeliefRevision

/-! ## Rows that operands can still reach -/

/-- An operand cannot be settled against the value that it would be filled in with. -/
theorem ne_some_not_getD (o : Option Bool) (x : Bool) : o ≠ some !o.getD x := by
  cases o <;> simp

/-- A binary connective that is not settled against a value has a row with that value. -/
theorem Binary.exists_row {op : Binary} {o o' : Option Bool} {x : Bool}
    (h : op.value? o o' ≠ some !x) :
    ∃ y z, o ≠ some !y ∧ o' ≠ some !z ∧ op.value y z = x := by
  rw [ne_eq, value?_eq_some_iff] at h
  push Not at h
  obtain ⟨y, hy, z, hz, value⟩ := h
  exact ⟨y, z, mem_outcomes_iff.mp hy, mem_outcomes_iff.mp hz, Bool.not_eq_not.mp value⟩

/-- A junction that is not settled against a value takes it where all unknown operands do. -/
theorem Junction.value_map_getD {j : Junction} {os : List (Option Bool)} {x : Bool}
    (h : j.value? os ≠ some !x) : j.value (os.map (·.getD x)) = x := by
  by_cases absorbs : x = j.absorbing
  · subst absorbs
    rw [ne_eq, value?_eq_not_absorbing_iff] at h
    push Not at h
    obtain ⟨o, ho, other⟩ := h
    refine value_eq_absorbing_iff.mpr (List.mem_map.mpr ⟨o, ho, ?_⟩)
    rcases o with _ | b
    · rfl
    · simpa using other
  · obtain rfl : x = !j.absorbing := Bool.eq_not.mpr absorbs
    rw [Bool.not_not, ne_eq, value?_eq_absorbing_iff] at h
    refine Bool.eq_not.mpr fun value => ?_
    obtain ⟨o, ho, value⟩ := List.mem_map.mp (value_eq_absorbing_iff.mp value)
    rcases o with _ | b
    · simp at value
    · exact h (by rwa [← value])

namespace Formula

variable {p q : Formula} {ps : List Formula} {a b : Assignment} {f g : Valuation} {x : Bool}

/-! ## Completions -/

/-- The second assignment extends the first one, and has values for all variables of the formula. -/
structure IsCompletion (p : Formula) (a b : Assignment) : Prop where
  extendsTo : a.ExtendsTo b
  given : ∀ v ∈ p.vocabulary, v ∈ b

theorem IsCompletion.evaluate_eq (h : p.IsCompletion a b) :
    p.evaluate b = .ok (p.holds b.valuation) ∧ p.value? b = some (p.holds b.valuation) :=
  holds_valuation fun v hv => h.given v (mem_vocabulary.mpr hv)

/-- Every valuation that completes an assignment can be cut down to a completion. -/
theorem exists_isCompletion (p : Formula) (h : a.CompletesTo f) :
    ∃ b, p.IsCompletion a b ∧ p.evaluate b = .ok (p.holds f) := by
  have isOn := Assignment.isOn_on f (.ofList (a.domain ++ p.occurrences))
  have given : ∀ v ∈ p.vocabulary, v ∈ f.on (.ofList (a.domain ++ p.occurrences)) := fun v hv =>
    (isOn v).mpr (mem_vocabulary_ofList.mpr (List.mem_append_right _ (mem_vocabulary.mp hv)))
  refine ⟨_, ⟨fun v x hx => ?_, given⟩, ?_⟩
  · have mem : v ∈ a.domain := Assignment.mem_domain.mpr (Assignment.mem_iff_exists.mpr ⟨x, hx⟩)
    rw [Assignment.getElem?_on, if_pos (mem_vocabulary_ofList.mpr (List.mem_append_left _ mem)),
      h v x hx]
  · exact evaluate_of_completesTo (fun v hv => given v (mem_vocabulary.mpr hv))
      (Assignment.completesTo_on f _)

theorem IsCompletion.evaluate_of_value? (h : p.IsCompletion a b) (settled : p.value? a = some x) :
    p.evaluate b = .ok x := by
  obtain ⟨evaluates, value⟩ := h.evaluate_eq
  rw [value?_mono h.extendsTo settled, Option.some_inj] at value
  rw [evaluates, value]

/-- **Settled values are right, and last.** A settled value is the one that evaluation gives under
every completion, and it stays settled under every extension, complete or not. Where all variables
have values the formula is settled, as evaluation says. -/
theorem settled_holds_in_completions (p : Formula) (a : Assignment) :
    (∀ x, p.value? a = some x →
      (∀ b, p.IsCompletion a b → p.evaluate b = .ok x) ∧
      ∀ b, a.ExtendsTo b → p.value? b = some x) ∧
    ((∀ v ∈ p.vocabulary, v ∈ a) → ∃ x, p.value? a = some x ∧ p.evaluate a = .ok x) := by
  refine ⟨fun x settled => ⟨fun b hb => hb.evaluate_of_value? settled,
    fun b hb => value?_mono hb settled⟩, fun given => ?_⟩
  obtain ⟨evaluates, value⟩ := IsCompletion.evaluate_eq ⟨.refl a, given⟩
  exact ⟨p.holds a.valuation, value, evaluates⟩

/-- One operand settles a disjunction, with another variable given or not. -/
theorem settled_holds_in_completions_disjunction :
    ((var "p").or (var "q")).value? (.ofList [("p", true)]) = some true ∧
    ((var "p").or (var "q")).IsCompletion (.ofList [("p", true)])
      (Std.ExtTreeMap.insert (.ofList [("p", true)]) "q" false) ∧
    ((var "p").or (var "q")).evaluate
      (Std.ExtTreeMap.insert (.ofList [("p", true)]) "q" false) = .ok true ∧
    Assignment.ExtendsTo (.ofList [("p", true)])
      (Std.ExtTreeMap.insert (.ofList [("p", true)]) "r" false) ∧
    ((var "p").or (var "q")).value?
      (Std.ExtTreeMap.insert (.ofList [("p", true)]) "r" false) = some true := by
  have settled : ((var "p").or (var "q")).value? (.ofList [("p", true)]) = some true := by
    decide +kernel
  have given : ∀ v ∈ ((var "p").or (var "q")).occurrences,
      v ∈ (Std.ExtTreeMap.insert (.ofList [("p", true)]) "q" false : Assignment) := by
    decide +kernel
  have completion : ((var "p").or (var "q")).IsCompletion (.ofList [("p", true)])
      (Std.ExtTreeMap.insert (.ofList [("p", true)]) "q" false) :=
    ⟨Assignment.extendsTo_insert (by decide +kernel), fun v hv => given v (mem_vocabulary.mp hv)⟩
  have extension : Assignment.ExtendsTo (.ofList [("p", true)])
      (Std.ExtTreeMap.insert (.ofList [("p", true)]) "r" false) :=
    Assignment.extendsTo_insert (by decide +kernel)
  obtain ⟨holds, lasts⟩ := (settled_holds_in_completions _ _).1 true settled
  exact ⟨settled, completion, holds _ completion, extension, lasts _ extension⟩

/-! ## Formulas that read no variable twice -/

/-- No variable occurs more than once. -/
def ReadOnce (p : Formula) : Prop := p.occurrences.Nodup

instance (p : Formula) : Decidable p.ReadOnce := inferInstanceAs (Decidable p.occurrences.Nodup)

/-- A junction reads no variable twice if no operand does and no two operands share a variable. -/
theorem readOnce_join {j : Junction} : (join j ps).ReadOnce ↔
    (∀ p ∈ ps, p.ReadOnce) ∧ ps.Pairwise fun p q => p.occurrences.Disjoint q.occurrences := by
  rw [ReadOnce, occurrences, occurrencesAll_eq_flatMap, List.nodup_flatMap]
  rfl

theorem readOnce_binary {op : Binary} : (binary op p q).ReadOnce ↔
    p.ReadOnce ∧ q.ReadOnce ∧ p.occurrences.Disjoint q.occurrences := List.nodup_append'

theorem completesTo_graft (hf : a.CompletesTo f) (hg : a.CompletesTo g) :
    a.CompletesTo (p.graft f g) := by
  intro v x hv
  by_cases h : v ∈ p.occurrences
  · rw [graft_eq_left h, hf v x hv]
  · rw [graft_eq_right h, hg v x hv]

/-- **Formulas without common variables can be completed independently.** -/
theorem exists_joint_completion {value : Formula → Bool}
    (apart : ps.Pairwise fun p q => p.occurrences.Disjoint q.occurrences)
    (each : ∀ p ∈ ps, ∃ f, a.CompletesTo f ∧ p.holds f = value p) :
    ∃ f, a.CompletesTo f ∧ ∀ p ∈ ps, p.holds f = value p := by
  induction ps with
  | nil => exact ⟨a.valuation, a.completesTo_valuation, List.forall_mem_nil _⟩
  | cons p ps ih =>
    obtain ⟨separate, apart⟩ := List.pairwise_cons.mp apart
    obtain ⟨⟨f, hf, first⟩, others⟩ := List.forall_mem_cons.mp each
    obtain ⟨g, hg, rest⟩ := ih apart others
    refine ⟨p.graft f g, completesTo_graft hf hg, List.forall_mem_cons.mpr ⟨?_, fun q hq => ?_⟩⟩
    · exact holds_graft.trans first
    · exact (holds_graft_of_apart fun _ hv hv' => separate q hq hv hv').trans (rest q hq)

/-- **A value that is not ruled out is reached**: in a formula that reads no variable twice, some
completion takes every value that the formula is not settled against. -/
theorem exists_completesTo_of_value?_ne (once : p.ReadOnce) (h : p.value? a ≠ some !x) :
    ∃ f, a.CompletesTo f ∧ p.holds f = x := by
  induction p generalizing x with
  | var v =>
    -- All variables without a value take the one sought.
    refine ⟨fun w => a[w]?.getD x, fun w y hw => ?_, ?_⟩
    · change a[w]?.getD x = y
      rw [hw, Option.getD_some]
    · change a[v]?.getD x = x
      change a[v]? ≠ some !x at h
      cases hv : a[v]? with
      | none => rfl
      | some y => simpa [hv] using h
  | top => exact ⟨a.valuation, a.completesTo_valuation, by simpa [value?, holds] using h⟩
  | bot => exact ⟨a.valuation, a.completesTo_valuation, by simpa [value?, holds] using h⟩
  | not p ih =>
    have operand : p.value? a ≠ some !!x := fun settled => h (by rw [value?, settled]; simp)
    obtain ⟨f, hf, value⟩ := ih once operand
    exact ⟨f, hf, by rw [holds, value, Bool.not_not]⟩
  | join j ps ih =>
    obtain ⟨onceEach, apart⟩ := readOnce_join.mp once
    rw [value?, values?_eq_map] at h
    -- Each operand gets its settled value, or the one sought if it has none.
    have each : ∀ p ∈ ps, ∃ f, a.CompletesTo f ∧ p.holds f = (p.value? a).getD x :=
      fun p hp => ih p hp (onceEach p hp) (ne_some_not_getD _ _)
    obtain ⟨f, hf, values⟩ := exists_joint_completion apart each
    refine ⟨f, hf, ?_⟩
    rw [holds, holdsAll_eq_map, List.map_congr_left values]
    have value := Junction.value_map_getD h
    rwa [List.map_map] at value
  | binary op p q ihp ihq =>
    obtain ⟨onceLeft, onceRight, apart⟩ := readOnce_binary.mp once
    obtain ⟨y, z, hy, hz, row⟩ := Binary.exists_row h
    obtain ⟨f, hf, left⟩ := ihp onceLeft hy
    obtain ⟨g, hg, right⟩ := ihq onceRight hz
    refine ⟨p.graft f g, completesTo_graft hf hg, ?_⟩
    rw [holds, holds_graft, holds_graft_of_apart fun _ hv hv' => apart hv hv', left, right, row]

/-- **Where no variable is read twice, settled is what holds in all completions.** The formula is
settled to a value exactly if it evaluates to it under every completion. It has no settled value
exactly if both values are taken by completions. -/
theorem settled_iff_in_completions (once : p.ReadOnce) (a : Assignment) :
    (∀ x, p.value? a = some x ↔ ∀ b, p.IsCompletion a b → p.evaluate b = .ok x) ∧
    (p.value? a = none ↔ ∀ x, ∃ b, p.IsCompletion a b ∧ p.evaluate b = .ok x) := by
  have reached {x : Bool} (h : p.value? a ≠ some !x) :
      ∃ b, p.IsCompletion a b ∧ p.evaluate b = .ok x := by
    obtain ⟨f, hf, value⟩ := exists_completesTo_of_value?_ne once h
    obtain ⟨b, hb, evaluates⟩ := p.exists_isCompletion hf
    exact ⟨b, hb, evaluates.trans (congrArg Except.ok value)⟩
  refine ⟨fun x => ⟨fun settled b hb => hb.evaluate_of_value? settled, fun all => ?_⟩,
    fun unsettled x => reached (by simp [unsettled]), fun both => ?_⟩
  · by_contra unsettled
    obtain ⟨b, hb, evaluates⟩ := reached (x := !x) (by rwa [Bool.not_not])
    rw [all b hb] at evaluates
    simp at evaluates
  · refine Option.eq_none_iff_forall_ne_some.mpr fun x settled => ?_
    obtain ⟨b, hb, evaluates⟩ := both !x
    rw [hb.evaluate_of_value? settled] at evaluates
    simp at evaluates

/-- An implication is open where it waits for its second operand, and settled where the first one
is false. -/
theorem settled_iff_in_completions_implication :
    (binary .implies (var "p") ((var "q").or bot)).ReadOnce ∧
    (binary .implies (var "p") ((var "q").or bot)).value? (.ofList [("p", true)]) = none ∧
    (∀ x, ∃ b, (binary .implies (var "p") ((var "q").or bot)).IsCompletion
        (.ofList [("p", true)]) b ∧
      (binary .implies (var "p") ((var "q").or bot)).evaluate b = .ok x) ∧
    (binary .implies (var "p") ((var "q").or bot)).value? (.ofList [("p", false)]) = some true ∧
    ∀ b, (binary .implies (var "p") ((var "q").or bot)).IsCompletion (.ofList [("p", false)]) b →
      (binary .implies (var "p") ((var "q").or bot)).evaluate b = .ok true := by
  have once : (binary .implies (var "p") ((var "q").or bot)).ReadOnce := by decide
  have unsettled : (binary .implies (var "p") ((var "q").or bot)).value?
      (.ofList [("p", true)]) = none := by decide +kernel
  have settled : (binary .implies (var "p") ((var "q").or bot)).value?
      (.ofList [("p", false)]) = some true := by decide +kernel
  exact ⟨once, unsettled, (settled_iff_in_completions once _).2.mp unsettled, settled,
    ((settled_iff_in_completions once _).1 true).mp settled⟩

/-- A variable that is read twice can keep a contradiction from being settled. -/
example : ((var "p").and (not (var "p"))).value? ∅ = none ∧
    ((var "p").and (not (var "p"))).isContradiction = true := by decide +kernel

end Formula

end BeliefRevision
