import BeliefRevision.Model.NormalForm
import BeliefRevision.Proofs.Conflicts

/-!
# Merging terms

The merged normal form replaces two adjacent terms by what they have in common, as long as there are
any. Two terms are adjacent if they extend one and the same term by opposite values of one variable
(`isAdjacent_iff`), and that term is what they have in common (`common_insert`). So a valuation
completes it if it completes one of the two (`completesTo_insert_iff`).

Which terms are merged, and in which order, makes no difference for what follows. `MergesTo` holds
of the terms before and after a number of merges, each of any adjacent terms. Every merge saves one
term, and keeps both the valuations that complete some term and the terms apart (`Condenses`). The
normal form goes by levels: at the one with `n` variables only terms with `n` variables are left,
so that what has been merged is never adjacent to what was kept (`irreducible_mergeLevels`).

* `mergesTo_mergedTerms`: the merged terms come from the models by merges.
* `holds_toDnf`: the merged normal form is true where the formula is.
* **`mergedTerms_exact`**: the merged terms are apart, irreducible and together say what the
  formula says.
-/

namespace BeliefRevision

namespace Assignment

variable {a b t u : Assignment} {terms terms' terms'' rest : List Assignment} {v w : Variable}
  {x : Bool} {f : Valuation} {n m : Nat}

/-! ## Adjacent terms -/

theorem size_insert_of_notMem (fresh : v ∉ t) : (t.insert v x).size = t.size + 1 := by
  rw [Std.ExtTreeMap.size_insert, if_neg (by rwa [Std.ExtTreeMap.contains_iff_mem])]

theorem domain_insert_eq (t : Assignment) (v : Variable) (x y : Bool) :
    domain (t.insert v x) = domain (t.insert v y) :=
  domain_eq_iff.mpr fun w => by rw [Std.ExtTreeMap.mem_insert, Std.ExtTreeMap.mem_insert]

theorem disagreements_insert (fresh : v ∉ t) :
    disagreements (t.insert v x) (t.insert v !x) = [v] := by
  refine List.perm_singleton.mp ((List.perm_ext_iff_of_nodup nodup_disagreements
    (List.nodup_singleton v)).mpr fun w => ?_)
  rw [mem_disagreements, List.mem_singleton]
  simp only [getElem?_insert_eq]
  constructor
  · rintro ⟨y, hy, hy'⟩
    by_contra other
    rw [if_neg (Ne.symm other)] at hy hy'
    rw [hy] at hy'
    simp at hy'
  · rintro rfl
    exact ⟨x, if_pos rfl, if_pos rfl⟩

theorem eq_insert_erase (given : b[v]? = some x) (agree : ∀ w, w ≠ v → b[w]? = a[w]?) :
    b = (a.erase v).insert v x := by
  refine Std.ExtTreeMap.ext_getElem? fun w => ?_
  rw [getElem?_insert_eq, Std.ExtTreeMap.getElem?_erase]
  by_cases h : v = w
  · rw [if_pos h, ← h, given]
  · simp [h, agree w (Ne.symm h)]

/-- **Terms are adjacent** if they extend the same term by opposite values of one variable. -/
theorem isAdjacent_iff : a.isAdjacent b = true ↔
    ∃ (t : Assignment) (v : Variable) (x : Bool),
      v ∉ t ∧ a = t.insert v x ∧ b = t.insert v !x := by
  rw [isAdjacent, Bool.and_eq_true, beq_iff_eq, beq_iff_eq]
  constructor
  · rintro ⟨same, one⟩
    obtain ⟨v, single⟩ := List.length_eq_one_iff.mp one
    obtain ⟨x, hav, hbv⟩ := mem_disagreements.mp (single ▸ List.mem_singleton.mpr rfl)
    have agree (w : Variable) (other : w ≠ v) : b[w]? = a[w]? :=
      getElem?_eq_of_notMem_disagreements same (by rwa [single, List.mem_singleton])
    exact ⟨a.erase v, v, x, by simp, eq_insert_erase hav fun _ _ => rfl, eq_insert_erase hbv agree⟩
  · rintro ⟨t, v, x, fresh, rfl, rfl⟩
    exact ⟨domain_insert_eq t v x !x, congrArg List.length (disagreements_insert fresh)⟩

/-- Adjacent terms have in common the term that they extend. -/
theorem common_insert (fresh : v ∉ t) : common (t.insert v x) (t.insert v !x) = t := by
  refine Std.ExtTreeMap.ext_getElem? fun w => ?_
  rw [common, Std.ExtTreeMap.getElem?_filter', getElem?_insert_eq, getElem?_insert_eq]
  by_cases h : v = w
  · subst h
    have none : t[v]? = none := Std.ExtTreeMap.getElem?_eq_none fresh
    simp [none]
  · cases t[w]? <;> simp [h]

theorem isAdjacent_comm : a.isAdjacent b = b.isAdjacent a := by
  rw [isAdjacent, isAdjacent, hamming_comm, BEq.comm (a := a.domain)]

theorem size_eq_of_isAdjacent (h : a.isAdjacent b = true) :
    a.size = (a.common b).size + 1 ∧ b.size = (a.common b).size + 1 := by
  obtain ⟨t, v, x, fresh, rfl, rfl⟩ := isAdjacent_iff.mp h
  rw [common_insert fresh]
  exact ⟨size_insert_of_notMem fresh, size_insert_of_notMem fresh⟩

/-! ## Merging any terms in any order -/

/-- The second list comes from the first one by the given number of merges, each of which replaces
two adjacent terms by what they have in common. The order of the terms makes no difference. -/
inductive MergesTo : Nat → List Assignment → List Assignment → Prop where
  | done {terms terms' : List Assignment} (same : terms.Perm terms') : MergesTo 0 terms terms'
  | merge {n : Nat} {a b : Assignment} {terms rest terms' : List Assignment}
      (adjacent : a.isAdjacent b = true) (taken : terms.Perm (a :: b :: rest))
      (run : MergesTo n (a.common b :: rest) terms') : MergesTo (n + 1) terms terms'

theorem MergesTo.trans (h : MergesTo n terms terms') (h' : MergesTo m terms' terms'') :
    MergesTo (n + m) terms terms'' := by
  induction h with
  | done same =>
    rw [Nat.zero_add]
    cases h' with
    | done same' => exact .done (same.trans same')
    | merge adjacent taken run => exact .merge adjacent (same.trans taken) run
  | @merge n _ _ _ _ _ adjacent taken run ih =>
    rw [Nat.add_right_comm]
    exact .merge adjacent taken (ih h')

/-- Terms that no merge takes may stand beside the others. -/
theorem MergesTo.append_right (h : MergesTo n terms terms') (others : List Assignment) :
    MergesTo n (terms ++ others) (terms' ++ others) := by
  induction h with
  | done same => exact .done (same.append_right others)
  | merge adjacent taken _ ih => exact .merge adjacent (taken.append_right others) ih

theorem MergesTo.append_left (h : MergesTo n terms terms') (others : List Assignment) :
    MergesTo n (others ++ terms) (others ++ terms') := by
  have moved := (MergesTo.done List.perm_append_comm).trans (h.append_right others)
  have back := moved.trans (.done List.perm_append_comm)
  rwa [Nat.zero_add, Nat.add_zero] at back

/-- **Every merge saves one term.** -/
theorem MergesTo.length_eq (h : MergesTo n terms terms') : n + terms'.length = terms.length := by
  induction h with
  | done same => rw [Nat.zero_add, same.length_eq]
  | merge _ taken _ ih =>
    rw [taken.length_eq]
    simp only [List.length_cons] at ih ⊢
    omega

/-- No valuation completes both terms. -/
def Excludes (t u : Assignment) : Prop := ∀ f, t.CompletesTo f → ¬u.CompletesTo f

instance : Std.Symm Excludes := ⟨fun _ _ h f hu ht => h f ht hu⟩

/-- No valuation completes two of the terms. -/
def Apart (terms : List Assignment) : Prop := terms.Pairwise Excludes

theorem apart_perm (h : terms.Perm terms') : Apart terms ↔ Apart terms' :=
  h.pairwise_iff fun excludes => Std.Symm.symm _ _ excludes

theorem Apart.nodup (h : Apart terms) : terms.Nodup := by
  refine h.imp fun {t u} excludes same => ?_
  exact excludes t.valuation t.completesTo_valuation (same ▸ t.completesTo_valuation)

theorem Apart.eq (h : Apart terms) (ht : t ∈ terms) (hu : u ∈ terms) (completes : t.CompletesTo f)
    (completes' : u.CompletesTo f) : t = u := by
  by_contra ne
  exact List.Pairwise.forall h ht hu ne f completes completes'

/-- The second list says what the first one says, in terms taken from it that leave out some of
their variables, and keeps apart what is. -/
structure Condenses (terms terms' : List Assignment) : Prop where
  completes : ∀ f, (∃ t ∈ terms', t.CompletesTo f) ↔ ∃ t ∈ terms, t.CompletesTo f
  shortens : ∀ t ∈ terms', ∃ u ∈ terms, t.ExtendsTo u
  apart : Apart terms → Apart terms'

theorem Condenses.of_perm (h : terms.Perm terms') : Condenses terms terms' where
  completes f := by simp only [h.mem_iff]
  shortens t ht := ⟨t, h.mem_iff.mpr ht, .refl t⟩
  apart := (apart_perm h).mp

theorem Condenses.trans (h : Condenses terms terms') (h' : Condenses terms' terms'') :
    Condenses terms terms'' where
  completes f := (h'.completes f).trans (h.completes f)
  shortens t ht := by
    obtain ⟨u, hu, htu⟩ := h'.shortens t ht
    obtain ⟨w, hw, huw⟩ := h.shortens u hu
    exact ⟨w, hw, htu.trans huw⟩
  apart := h'.apart ∘ h.apart

/-- **One merge condenses**: a valuation completes the new term if it completes one of the two. -/
theorem condenses_merge (adjacent : a.isAdjacent b = true) :
    Condenses (a :: b :: rest) (a.common b :: rest) := by
  obtain ⟨t, v, x, fresh, rfl, rfl⟩ := isAdjacent_iff.mp adjacent
  rw [common_insert fresh]
  -- Every valuation gives `v` one of the two values.
  have either (f : Valuation) : t.CompletesTo f ↔
      CompletesTo (t.insert v x) f ∨ CompletesTo (t.insert v !x) f := by
    rw [completesTo_insert_iff fresh, completesTo_insert_iff fresh, ← and_or_left]
    exact (and_iff_left (Bool.eq_or_eq_not (f v) x)).symm
  constructor
  · intro f
    rw [List.exists_mem_cons_iff, List.exists_mem_cons_iff, List.exists_mem_cons_iff, either, or_assoc]
  · intro u hu
    rcases List.mem_cons.mp hu with rfl | hu
    · exact ⟨_, List.mem_cons_self, extendsTo_insert fresh⟩
    · exact ⟨u, List.mem_cons_of_mem _ (List.mem_cons_of_mem _ hu), .refl u⟩
  · intro apart
    obtain ⟨left, right, others⟩ : _ ∧ _ ∧ _ := by
      simpa only [Apart, List.pairwise_cons] using apart
    refine List.pairwise_cons.mpr ⟨fun u hu f ht => ?_, others⟩
    rcases (either f).mp ht with h | h
    · exact left u (List.mem_cons_of_mem _ hu) f h
    · exact right u hu f h

/-- **So does a run of merges.** -/
theorem MergesTo.condenses (h : MergesTo n terms terms') : Condenses terms terms' := by
  induction h with
  | done same => exact .of_perm same
  | merge adjacent taken _ ih =>
    exact (Condenses.of_perm taken).trans ((condenses_merge adjacent).trans ih)

/-! ## One level -/

theorem adjacentPair?_eq_some (h : adjacentPair? terms = some (a, b)) :
    a.isAdjacent b = true ∧ terms.Perm (a :: b :: (terms.erase a).erase b) := by
  have found : a.isAdjacent b = true ∧ b ∈ terms.erase a := by
    fun_induction adjacentPair? terms with
    | case1 => cases h
    | case2 c rest d hd =>
      cases h
      rw [List.erase_cons_head]
      exact ⟨List.find?_some hd, List.mem_of_find?_eq_some hd⟩
    | case3 c rest _ ih =>
      obtain ⟨adjacent, hb⟩ := ih h
      refine ⟨adjacent, ?_⟩
      rw [List.erase_cons]
      split
      · exact List.mem_of_mem_erase hb
      · exact List.mem_cons_of_mem c hb
  refine ⟨found.1, (List.perm_cons_erase (mem_of_adjacentPair? h)).trans ?_⟩
  exact (List.perm_cons_erase found.2).cons a

/-- No two of the terms are adjacent. -/
def Irreducible (terms : List Assignment) : Prop :=
  ∀ t ∈ terms, ∀ u ∈ terms, t.isAdjacent u = false

theorem isAdjacent_self (t : Assignment) : t.isAdjacent t = false := by
  rw [isAdjacent, (hamming_eq_zero_iff rfl).mpr rfl]
  exact Bool.and_false _

theorem irreducible_of_adjacentPair?_eq_none (h : adjacentPair? terms = none) :
    Irreducible terms := by
  fun_induction adjacentPair? terms with
  | case1 => exact fun t ht => absurd ht List.not_mem_nil
  | case2 => cases h
  | case3 c rest none ih =>
    have apart (u : Assignment) (hu : u ∈ rest) : c.isAdjacent u = false :=
      Bool.eq_false_iff.mpr (List.find?_eq_none.mp none u hu)
    refine List.forall_mem_cons.mpr ⟨List.forall_mem_cons.mpr ⟨isAdjacent_self c, apart⟩, ?_⟩
    refine fun t ht => List.forall_mem_cons.mpr ⟨?_, ih h t ht⟩
    rw [isAdjacent_comm, apart t ht]

/-- Merging a level comes to merges, whatever its terms are. -/
theorem mergesTo_mergeLevel (terms : List Assignment) :
    ∃ n, MergesTo n terms ((mergeLevel terms).1 ++ (mergeLevel terms).2) := by
  fun_induction mergeLevel terms with
  | case1 terms none => exact ⟨0, .done (by rw [List.append_nil])⟩
  | case2 terms a b pair kept merged rest ih =>
    rw [rest] at ih
    obtain ⟨n, run⟩ := ih
    obtain ⟨adjacent, taken⟩ := adjacentPair?_eq_some pair
    have moved : (a.common b :: (kept ++ merged)).Perm (kept ++ a.common b :: merged) :=
      List.perm_middle.symm
    exact ⟨n + 1, .merge adjacent taken ((run.append_left [a.common b]).trans (.done moved))⟩

/-- What is kept of a level is irreducible and has been there, and what is merged is shorter. -/
theorem irreducible_mergeLevel (h : ∀ t ∈ terms, t.size = n + 1) :
    Irreducible (mergeLevel terms).1 ∧ (∀ t ∈ (mergeLevel terms).1, t.size = n + 1) ∧
      ∀ t ∈ (mergeLevel terms).2, t.size = n := by
  fun_induction mergeLevel terms with
  | case1 terms none =>
    exact ⟨irreducible_of_adjacentPair?_eq_none none, h, fun t ht => absurd ht List.not_mem_nil⟩
  | case2 terms a b pair kept merged rest ih =>
    rw [rest] at ih
    obtain ⟨irreducible, keeps, shortens⟩ :=
      ih fun t ht => h t (List.mem_of_mem_erase (List.mem_of_mem_erase ht))
    refine ⟨irreducible, keeps, List.forall_mem_cons.mpr ⟨?_, shortens⟩⟩
    have shorter := (size_eq_of_isAdjacent (adjacentPair?_eq_some pair).1).1
    have size := h a (mem_of_adjacentPair? pair)
    omega

/-! ## All levels -/

theorem mem_sortTerms : t ∈ sortTerms terms ↔ t ∈ terms := by
  rw [sortTerms, Std.ExtTreeSet.mem_toList, Std.ExtTreeSet.mem_ofList, List.contains_iff_mem]

theorem ordered_sortTerms (terms : List Assignment) :
    (sortTerms terms).Pairwise (termOrder · · = .lt) := Std.ExtTreeSet.ordered_toList

theorem sortTerms_perm (h : terms.Nodup) : (sortTerms terms).Perm terms :=
  (List.perm_ext_iff_of_nodup (nodup_of_ordered (ordered_sortTerms terms)) h).mpr
    fun _ => mem_sortTerms

/-- **Merging all levels comes to merges** of terms that are apart. -/
theorem mergesTo_mergeLevels (n : Nat) (h : Apart terms) :
    ∃ m, MergesTo m terms (mergeLevels n terms) := by
  induction n generalizing terms with
  | zero => exact ⟨0, .done .rfl⟩
  | succ n ih =>
    -- Sorting drops repetitions: it takes no term away because terms that are apart differ.
    have sorted : MergesTo 0 terms (sortTerms terms) := .done (sortTerms_perm h.nodup).symm
    obtain ⟨m, level⟩ := mergesTo_mergeLevel (sortTerms terms)
    have run := sorted.trans level
    have apart : Apart (mergeLevel (sortTerms terms)).2 :=
      (run.condenses.apart h).sublist (List.sublist_append_right _ _)
    obtain ⟨m', below⟩ := ih apart
    exact ⟨_, run.trans (below.append_left _)⟩

/-- **Levels that are done stay irreducible**: what is merged has fewer variables than what was
kept before. -/
theorem irreducible_mergeLevels (h : ∀ t ∈ terms, t.size = n) :
    Irreducible (mergeLevels n terms) ∧ ∀ t ∈ mergeLevels n terms, t.size ≤ n := by
  have not_adjacent {t u : Assignment} (ne : t.size ≠ u.size) : t.isAdjacent u = false := by
    rw [← Bool.not_eq_true]
    intro adjacent
    obtain ⟨left, right⟩ := size_eq_of_isAdjacent adjacent
    exact ne (left.trans right.symm)
  induction n generalizing terms with
  | zero =>
    refine ⟨fun t ht u _ => ?_, fun t ht => (h t ht).le⟩
    rw [← Bool.not_eq_true]
    intro adjacent
    have size := (size_eq_of_isAdjacent adjacent).1
    rw [h t ht] at size
    cases size
  | succ n ih =>
    have sorted : ∀ t ∈ sortTerms terms, t.size = n + 1 := fun t ht => h t (mem_sortTerms.mp ht)
    obtain ⟨irreducible, keeps, shortens⟩ := irreducible_mergeLevel sorted
    obtain ⟨below, le⟩ := ih shortens
    -- What is kept here has more variables than anything that comes from the levels below.
    have shorter {t u : Assignment} (ht : t ∈ (mergeLevel (sortTerms terms)).1)
        (hu : u ∈ mergeLevels n (mergeLevel (sortTerms terms)).2) : u.size < t.size :=
      keeps t ht ▸ Nat.lt_succ_of_le (le u hu)
    refine ⟨?_, List.forall_mem_append.mpr ⟨fun t ht => (keeps t ht).le,
      fun t ht => Nat.le_succ_of_le (le t ht)⟩⟩
    refine List.forall_mem_append.mpr ⟨fun t ht => ?_, fun t ht => ?_⟩
    · exact List.forall_mem_append.mpr
        ⟨irreducible t ht, fun u hu => not_adjacent (shorter ht hu).ne'⟩
    · exact List.forall_mem_append.mpr
        ⟨fun u hu => not_adjacent (shorter hu ht).ne, below t ht⟩

end Assignment

/-! ## The merged terms of a formula -/

namespace Formula

open Assignment

variable {p : Formula} {terms : List Assignment} {f : Valuation} {n : Nat}

/-- The terms mention variables of the formula only. Each assignment to these that makes it true
agrees with exactly one of them, and each one that makes it false with none. -/
structure SplitInto (p : Formula) (terms : List Assignment) : Prop where
  nodup : terms.Nodup
  mentioned : ∀ t ∈ terms, ∀ v ∈ t, v ∈ p.occurrences
  existsUnique : ∀ a : Assignment, a.IsOn p.vocabulary → p.evaluate a = .ok true →
    ∃! t, t ∈ terms ∧ t.ExtendsTo a
  none : ∀ a : Assignment, a.IsOn p.vocabulary → p.evaluate a = .ok false →
    ∀ t ∈ terms, ¬t.ExtendsTo a

theorem exists_model_completesTo_iff :
    (∃ m ∈ p.models, m.CompletesTo f) ↔ p.holds f = true := by
  constructor
  · rintro ⟨m, hm, completes⟩
    exact (mem_models.mp hm).holds completes
  · intro hf
    exact ⟨f.on p.vocabulary, mem_models.mpr (isModel_on_iff.mpr hf), completesTo_on f _⟩

theorem apart_models (p : Formula) : Apart p.models := by
  refine p.nodup_models.imp_of_mem fun {t u} ht hu ne f completes completes' => ne ?_
  rw [eq_on_of_completesTo (mem_models.mp ht).1 completes,
    eq_on_of_completesTo (mem_models.mp hu).1 completes']

/-- Whatever the models condense to splits the formula. -/
theorem splitInto_of_condenses (h : Condenses p.models terms) : p.SplitInto terms := by
  have mentioned : ∀ t ∈ terms, ∀ v ∈ t, v ∈ p.occurrences := by
    intro t ht v hv
    obtain ⟨m, hm, follows⟩ := h.shortens t ht
    obtain ⟨x, hx⟩ := mem_iff_exists.mp hv
    exact mem_vocabulary.mp (((mem_models.mp hm).1 v).mp (mem_iff_exists.mpr ⟨x, follows v x hx⟩))
  have agrees {a t : Assignment} (ha : a.IsOn p.vocabulary) (ht : t ∈ terms) :
      t.ExtendsTo a ↔ t.CompletesTo a.valuation :=
    extendsTo_iff_completesTo fun v hv => (ha v).mpr (mem_vocabulary.mpr (mentioned t ht v hv))
  have said (f : Valuation) : (∃ t ∈ terms, t.CompletesTo f) ↔ p.holds f = true :=
    (h.completes f).trans exists_model_completesTo_iff
  have apart := h.apart p.apart_models
  refine ⟨apart.nodup, mentioned, fun a ha true => ?_, fun a ha false t ht follows => ?_⟩
  · obtain ⟨t, ht, completes⟩ :=
      (said _).mpr ((p.isOver_vocabulary.evaluate_eq_true_iff ha).mp true)
    refine ⟨t, ⟨ht, (agrees ha ht).mpr completes⟩, fun u ⟨hu, follows⟩ => ?_⟩
    exact apart.eq hu ht ((agrees ha hu).mp follows) completes
  · rw [p.isOver_vocabulary.evaluate_eq ha a.completesTo_valuation, Except.ok.injEq] at false
    rw [(said _).mp ⟨t, ht, (agrees ha ht).mp follows⟩] at false
    cases false

/-- **The merged terms come from the models by merges.** -/
theorem mergesTo_mergedTerms (p : Formula) : ∃ n, MergesTo n p.models p.mergedTerms := by
  obtain ⟨n, run⟩ := mergesTo_mergeLevels p.vocabulary.size p.apart_models
  exact ⟨n, run.trans (.done (sortTerms_perm (run.condenses.apart p.apart_models).nodup).symm)⟩

theorem irreducible_mergedTerms (p : Formula) : Irreducible p.mergedTerms := by
  have full : ∀ m ∈ p.models, m.size = p.vocabulary.size := fun m hm =>
    size_eq_of_mem_iff (mem_models.mp hm).1
  have levels := (irreducible_mergeLevels full).1
  exact fun t ht u hu => levels t (mem_sortTerms.mp ht) u (mem_sortTerms.mp hu)

/-- **The merged normal form is true where the formula is.** -/
theorem holds_toDnf : p.toDnf.holds f = p.holds f := by
  obtain ⟨n, run⟩ := p.mergesTo_mergedTerms
  rw [Bool.eq_iff_iff, toDnf, holds_ofAssignments, run.condenses.completes,
    exists_model_completesTo_iff]

theorem mem_occurrences_of_toDnf {v : Variable} (hv : v ∈ p.toDnf.occurrences) :
    v ∈ p.occurrences := by
  obtain ⟨n, run⟩ := p.mergesTo_mergedTerms
  obtain ⟨t, ht, hv⟩ := mem_occurrences_ofAssignments.mp hv
  exact (splitInto_of_condenses run.condenses).mentioned t ht v hv

end Formula

/-- **The merged normal form is an irreducible disjoint cover.** However adjacent terms are merged,
starting from the models, there are no more merges than models, and the terms always split the
formula. The merged terms are reached in this way and allow no further merge, so there are at most
as many of them as models. Their disjunction mentions variables of the formula only, and evaluates
like it under all assignments to these. -/
theorem mergedTerms_exact (p : Formula) :
    (∀ (n : Nat) (terms : List Assignment), Assignment.MergesTo n p.models terms →
      n + terms.length = p.models.length ∧ p.SplitInto terms) ∧
    (∃ n, Assignment.MergesTo n p.models p.mergedTerms) ∧
    (∀ t ∈ p.mergedTerms, ∀ u ∈ p.mergedTerms, t.domain = u.domain → t.hamming u ≠ 1) ∧
    p.SplitInto p.mergedTerms ∧
    p.mergedTerms.length ≤ p.models.length ∧
    (∀ v ∈ p.toDnf.occurrences, v ∈ p.occurrences) ∧
    ∀ a : Assignment, (∀ v ∈ p.occurrences, v ∈ a) → p.toDnf.evaluate a = p.evaluate a := by
  obtain ⟨n, run⟩ := p.mergesTo_mergedTerms
  refine ⟨fun n terms run => ⟨run.length_eq, Formula.splitInto_of_condenses run.condenses⟩,
    ⟨n, run⟩, fun t ht u hu same one => ?_, Formula.splitInto_of_condenses run.condenses,
    run.length_eq ▸ Nat.le_add_left _ n, fun v => Formula.mem_occurrences_of_toDnf,
    fun a given => ?_⟩
  · have adjacent : t.isAdjacent u = true := by
      rw [Assignment.isAdjacent, same, one, beq_self_eq_true, beq_self_eq_true, Bool.and_self]
    rw [p.irreducible_mergedTerms t ht u hu] at adjacent
    cases adjacent
  · have given' : ∀ v ∈ p.toDnf.occurrences, v ∈ a := fun v hv =>
      given v (Formula.mem_occurrences_of_toDnf hv)
    rw [Formula.evaluate_of_completesTo given' a.completesTo_valuation,
      Formula.evaluate_of_completesTo given a.completesTo_valuation, Formula.holds_toDnf]

/-- A choice between two variables by a third one: its four models come to two terms. -/
theorem mergedTerms_exact_choice :
    (Formula.or (.and (.var "p") (.var "q")) (.and (.not (.var "p")) (.var "r"))).mergedTerms =
      [.ofEntries [("p", true), ("q", true)], .ofEntries [("p", false), ("r", true)]] ∧
    ((Assignment.ofEntries [("p", true), ("q", true), ("r", true)]).IsOn
        (Formula.or (.and (.var "p") (.var "q"))
          (.and (.not (.var "p")) (.var "r"))).vocabulary ∧
      (Formula.or (.and (.var "p") (.var "q")) (.and (.not (.var "p")) (.var "r"))).evaluate
        (.ofEntries [("p", true), ("q", true), ("r", true)]) = .ok true) ∧
    ∃! t, t ∈ (Formula.or (.and (.var "p") (.var "q"))
        (.and (.not (.var "p")) (.var "r"))).mergedTerms ∧
      t.ExtendsTo (.ofEntries [("p", true), ("q", true), ("r", true)]) := by
  have on : (Assignment.ofEntries [("p", true), ("q", true), ("r", true)]).IsOn
      (Formula.or (.and (.var "p") (.var "q"))
        (.and (.not (.var "p")) (.var "r"))).vocabulary :=
    Assignment.isOn_iff_domain_eq.mpr (by decide +kernel)
  have value : (Formula.or (.and (.var "p") (.var "q"))
      (.and (.not (.var "p")) (.var "r"))).evaluate
        (.ofEntries [("p", true), ("q", true), ("r", true)]) = .ok true := by decide +kernel
  obtain ⟨-, -, -, splits, -⟩ := mergedTerms_exact
    (.or (.and (.var "p") (.var "q")) (.and (.not (.var "p")) (.var "r")))
  exact ⟨by decide +kernel, ⟨on, value⟩, splits.existsUnique _ on value⟩

end BeliefRevision
