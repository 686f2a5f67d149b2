import BeliefRevision.Signal.Basic

/-!
# Computations under a signal

A computation that looks at a signal should return the same value whatever the signal does, unless
it gives up. `Watched.Returns` states this of watched computations and `Search.Returns` of searches,
which give up with a cancellation: the value is the expected one, or the signal is raised and the
computation has given up. Both are closed under the ways in which computations are put together, so
that they can be read off from the text of a program.

* `Returns.bind` composes two computations. The second must pass on at once what the first one gave
  up with; this is where a program that forgets to ask would fail.
* `Returns.of_quiet`: a signal that nothing raises gives the expected value.
-/

namespace BeliefRevision

/-- Nothing can raise the signal. -/
structure Signal.Quiet (s : Signal) : Prop where
  lowered : s.raised = false
  atReading : ∀ n, s.atReading n = false
  atRevision : ∀ n, s.atRevision n = false
  unshared : s.shared = false

theorem Signal.quiet_silent : silent.Quiet := ⟨rfl, fun _ => rfl, fun _ => rfl, rfl⟩

/-! ## Watched computations -/

namespace Watched

/-- The computation returns `a`, unless the signal gets raised and the computation has given up. It
never lowers the signal, and leaves a quiet one quiet. -/
structure Returns {α : Type} (x : Watched α) (a : α) (gaveUp : α → Prop) : Prop where
  value : ∀ s, (x.run s).1 = a ∨ gaveUp (x.run s).1 ∧ (x.run s).2.raised = true
  raised : ∀ s, s.raised = true → (x.run s).2.raised = true
  quiet : ∀ s, s.Quiet → (x.run s).2.Quiet

/-- The computation returns `a` and never gives up. -/
abbrev Gives {α : Type} (x : Watched α) (a : α) : Prop := Returns x a fun _ => False

variable {α β : Type} {x : Watched α} {f : α → Watched β} {a : α} {b : β} {s : Signal}
  {gaveUp : α → Prop} {gaveUp' : β → Prop}

theorem returns_pure (a : α) : Returns (pure a) a gaveUp :=
  ⟨fun _ => Or.inl rfl, fun _ h => h, fun _ h => h⟩

theorem Returns.of_quiet (h : x.Returns a gaveUp) (hs : s.Quiet) : (x.run s).1 = a := by
  rcases h.value s with value | ⟨-, raised⟩
  · exact value
  · rw [(h.quiet s hs).lowered] at raised
    cases raised

theorem Returns.unwatched_eq (h : x.Returns a gaveUp) : Signal.unwatched x = a :=
  h.of_quiet Signal.quiet_silent

/-- The second computation may look at what the first one gave up with, but must give up in turn. -/
theorem Returns.bind (hx : x.Returns a gaveUp) (hf : (f a).Returns b gaveUp')
    (pass : ∀ a', gaveUp a' → ∃ b', f a' = Pure.pure b' ∧ gaveUp' b') :
    Returns (x >>= f) b gaveUp' := by
  have run (s : Signal) : (x >>= f).run s = (f (x.run s).1).run (x.run s).2 := rfl
  refine ⟨fun s => ?_, fun s hs => ?_, fun s hs => ?_⟩
  · rw [run]
    -- Giving up is final: the second computation is then a `pure` and leaves the signal raised.
    rcases hx.value s with value | ⟨gave, raised⟩
    · rw [value]
      exact hf.value _
    · obtain ⟨b', eq, gave'⟩ := pass _ gave
      rw [eq]
      exact Or.inr ⟨gave', raised⟩
  · rw [run]
    rcases hx.value s with value | ⟨gave, -⟩
    · rw [value]
      exact hf.raised _ (hx.raised s hs)
    · obtain ⟨b', eq, -⟩ := pass _ gave
      rw [eq]
      exact hx.raised s hs
  · rw [run, hx.of_quiet hs]
    exact hf.quiet _ (hx.quiet s hs)

theorem Returns.map {g : α → β} (hx : x.Returns a gaveUp)
    (pass : ∀ a', gaveUp a' → gaveUp' (g a')) : Returns (g <$> x) (g a) gaveUp' := by
  rw [map_eq_pure_bind]
  exact hx.bind (returns_pure _) fun a' h => ⟨g a', rfl, pass a' h⟩

theorem Gives.bind (hx : x.Gives a) (hf : (f a).Returns b gaveUp') :
    Returns (x >>= f) b gaveUp' :=
  Returns.bind hx hf fun _ h => h.elim

theorem Gives.run_eq (h : x.Gives a) (s : Signal) : (x.run s).1 = a :=
  (h.value s).resolve_right fun gave => gave.1

end Watched

namespace Signal

theorem returns_readIf (heed : Bool) :
    (readIf heed).Returns false fun seen => heed = true ∧ seen = true := by
  cases heed with
  | false => exact Watched.returns_pure false
  | true =>
    refine ⟨fun s => ?_, fun s hs => ?_, fun s hs => ?_⟩
    · change (s.raised || s.atReading s.readings) = false ∨
        (_ ∧ (s.raised || s.atReading s.readings) = true) ∧
          (s.raised || s.atReading s.readings) = true
      cases s.raised || s.atReading s.readings <;> simp
    · change (s.raised || s.atReading s.readings) = true
      rw [hs, Bool.true_or]
    · refine ⟨?_, hs.atReading, hs.atRevision, hs.unshared⟩
      change (s.raised || s.atReading s.readings) = false
      rw [hs.lowered, hs.atReading, Bool.or_false]

theorem gives_countRevision : countRevision.Gives () := by
  refine ⟨fun _ => Or.inl rfl, fun s hs => ?_, fun s hs => ?_⟩
  · change (s.raised || s.atRevision (s.revisions + 1)) = true
    rw [hs, Bool.true_or]
  · refine ⟨?_, hs.atReading, hs.atRevision, hs.unshared⟩
    change (s.raised || s.atRevision (s.revisions + 1)) = false
    rw [hs.lowered, hs.atRevision, Bool.or_false]

theorem gives_alarm {rings : Bool} : (alarm rings).Gives () := by
  refine ⟨fun _ => Or.inl rfl, fun s hs => ?_, fun s hs => ?_⟩
  · change (if rings && s.shared then s.raise else s).raised = true
    split
    · rfl
    · exact hs
  · change (if rings && s.shared then s.raise else s).Quiet
    rw [hs.unshared, Bool.and_false]
    exact hs

end Signal

/-! ## Searches -/

/-- A search gave up: it failed by a cancellation, at whatever stage. -/
def GaveUp {α : Type} (r : Except Error α) : Prop := ∃ e, r = .error e ∧ e.cause = .cancelled

namespace Search

variable {α β : Type}

/-- What a search ends with under a signal. -/
def outcome (x : Search α) (s : Signal) : Except Error α := (x.run.run s).1

/-- Under the signal the search ends with `r`, or else it gives up and the signal is raised by
then. -/
def EndsAs (x : Search α) (s : Signal) (r : Except Error α) : Prop :=
  x.outcome s = r ∨ GaveUp (x.outcome s) ∧ (x.run.run s).2.raised = true

/-- The search ends with `r`, unless the signal gets raised and the search gives up. -/
def Returns (x : Search α) (r : Except Error α) : Prop := Watched.Returns x.run r GaveUp

variable {x : Search α} {r : Except Error α} {f : α → Search β} {g : α → Except Error β}
  {s : Signal} {stage : Stage}

theorem Returns.endsAs (h : x.Returns r) (s : Signal) : x.EndsAs s r := h.value s

theorem Returns.outcome_eq_ok (h : x.Returns r) {a : α} (ha : x.outcome s = .ok a) : r = .ok a := by
  rcases h.value s with value | ⟨⟨e, failed, -⟩, -⟩
  · exact value.symm.trans ha
  · cases failed.symm.trans ha

theorem returns_pure (a : α) : Returns (pure a) (.ok a) := Watched.returns_pure _

theorem returns_liftExcept (r : Except Error α) : Returns (liftM r) r := Watched.returns_pure r

theorem run_liftWatched_bind (y : Watched α) (f : α → Search β) :
    (liftM y >>= f : Search β).run = y >>= fun a => (f a).run := rfl

theorem returns_liftWatched {y : Watched α} {a : α} (h : y.Gives a) : Returns (liftM y) (.ok a) :=
  h.map (g := Except.ok) fun _ h => h.elim

theorem Returns.bind (hx : x.Returns r) (hf : ∀ a, r = .ok a → (f a).Returns (g a)) :
    Returns (x >>= f) (r >>= g) := by
  unfold Returns
  rw [ExceptT.run_bind]
  refine Watched.Returns.bind hx ?_ ?_
  · cases r with
    | ok a => exact hf a rfl
    | error e => exact Watched.returns_pure _
  · rintro r' ⟨e, rfl, cancelled⟩
    exact ⟨.error e, rfl, e, rfl, cancelled⟩

theorem Returns.bind_ok {a : α} {r : Except Error β} (hx : x.Returns (.ok a))
    (hf : (f a).Returns r) : Returns (x >>= f) r :=
  hx.bind (g := fun _ => r) fun _ h => by cases h; exact hf

theorem Returns.during (hx : x.Returns r) :
    (x.during stage).Returns (r.mapError (Error.during stage)) := by
  refine Watched.Returns.map (g := Except.mapError (Error.during stage)) hx ?_
  rintro r' ⟨e, rfl, cancelled⟩
  exact ⟨.during stage e, rfl, cancelled⟩

/-- A search may run a watched computation that can give up, if it then fails by a cancellation. -/
theorem returns_bind_watched {y : Watched α} {a : α} {r : Except Error β} {gaveUp : α → Prop}
    (hy : y.Returns a gaveUp) (hf : (f a).Returns r)
    (fails : ∀ a', gaveUp a' → ∃ e : Error, f a' = throw e ∧ e.cause = .cancelled) :
    Returns (liftM y >>= f) r := by
  unfold Returns
  rw [run_liftWatched_bind]
  refine Watched.Returns.bind hy hf fun a' gave => ?_
  obtain ⟨e, eq, cancelled⟩ := fails a' gave
  exact ⟨.error e, by rw [eq]; rfl, e, rfl, cancelled⟩

theorem returns_check : Returns Signal.check (.ok ()) := by
  refine returns_bind_watched (Signal.returns_readIf true) (returns_pure ()) ?_
  rintro seen ⟨-, rfl⟩
  exact ⟨.cancelled, rfl, rfl⟩

/-! ### Searches through lists -/

theorem returns_mapM {h : α → β} {as : List α} (hf : ∀ a ∈ as, (f a).Returns (.ok (h a))) :
    Returns (as.mapM f) (.ok (as.map h)) := by
  induction as with
  | nil => exact returns_pure []
  | cons a as ih =>
    rw [List.mapM_cons]
    refine (hf a List.mem_cons_self).bind_ok ?_
    exact (ih fun b hb => hf b (List.mem_cons_of_mem a hb)).bind_ok (returns_pure _)

variable {test : α → Search Bool} {p : α → Bool} {as : List α}

theorem returns_allM (ht : ∀ a, (test a).Returns (.ok (p a))) :
    Returns (as.allM test) (.ok (as.all p)) := by
  induction as with
  | nil => exact returns_pure true
  | cons a as ih =>
    rw [List.allM, List.all_cons]
    refine (ht a).bind_ok ?_
    cases p a with
    | true => exact ih
    | false => exact returns_pure false

theorem returns_findM? (ht : ∀ a, (test a).Returns (.ok (p a))) :
    Returns (as.findM? test) (.ok (as.find? p)) := by
  induction as with
  | nil => exact returns_pure none
  | cons a as ih =>
    rw [List.findM?, List.find?_cons]
    refine (ht a).bind_ok ?_
    cases p a with
    | true => exact returns_pure (some a)
    | false => exact ih

theorem returns_findSomeM? {f : α → Search (Option β)} {h : α → Option β}
    (hf : ∀ a, (f a).Returns (.ok (h a))) :
    Returns (as.findSomeM? f) (.ok (as.findSome? h)) := by
  induction as with
  | nil => exact returns_pure none
  | cons a as ih =>
    rw [List.findSomeM?_cons, List.findSome?_cons]
    refine (hf a).bind_ok ?_
    cases h a with
    | some b => exact returns_pure (some b)
    | none => exact ih

theorem returns_filterM (ht : ∀ a, (test a).Returns (.ok (p a))) :
    Returns (as.filterM test) (.ok (as.filter p)) := by
  have aux : ∀ acc : List α,
      Returns (List.filterAuxM test as acc) (.ok ((as.filter p).reverse ++ acc)) := by
    induction as with
    | nil => exact fun acc => returns_pure acc
    | cons a as ih =>
      intro acc
      rw [List.filterAuxM]
      refine (ht a).bind_ok ?_
      cases hp : p a with
      | true => simpa [hp] using ih (a :: acc)
      | false => simpa [hp] using ih acc
  refine (aux []).bind_ok ?_
  rw [List.append_nil, List.reverse_reverse]
  exact returns_pure _

end Search

end BeliefRevision
