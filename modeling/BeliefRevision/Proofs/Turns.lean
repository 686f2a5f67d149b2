import BeliefRevision.Proofs.Fewest

/-!
# A widening search turn by turn

The loop of a widening search looks at the signal, takes a round and tests the announcement of the
round, over and over. `Pursuit.turn` is one pass of the loop and `Pursuit.after` the state of
affairs when a number of passes is complete, under any signal. A pass that is complete is a round,
after which the agents are marked truthfully, so what holds at the start and is kept by such rounds
holds all along, also in a search that gives up later.

* `Pursuit.run_eq`: the loop consists of turns.
* `Pursuit.after_induction`: what rounds keep.
* **`Pursuit.exists_after_of_run`**: where a run ends that does not give up.
-/

namespace BeliefRevision

namespace Search

variable {α β : Type} {x : Search α} {f : α → Search β} {s t : Signal} {a : α} {b : β}

/-- A search in two steps runs the second one under the signal that the first one leaves. -/
theorem outcome_bind_of_run (h : x.run.run s = (.ok a, t)) :
    (x >>= f).outcome s = (f a).outcome t := by
  unfold outcome
  rw [ExceptT.run_bind, StateT.run_bind, h]
  rfl

theorem outcome_bind_eq_ok_iff :
    (x >>= f).outcome s = .ok b ↔ ∃ a t, x.run.run s = (.ok a, t) ∧ (f a).outcome t = .ok b := by
  constructor
  · intro h
    rcases hx : x.run.run s with ⟨e | a, t⟩
    · have failed : (x >>= f).outcome s = .error e := by
        unfold outcome
        rw [ExceptT.run_bind, StateT.run_bind, hx]
        rfl
      cases failed.symm.trans h
    · exact ⟨a, t, rfl, (outcome_bind_of_run hx).symm.trans h⟩
  · rintro ⟨a, t, hx, h⟩
    exact (outcome_bind_of_run hx).trans h

end Search

namespace Pursuit

variable {s s' t : Pursuit} {σ τ : Signal} {n : Nat} {found : Option Formula}

/-! ## Turns -/

/-- One turn of the loop: the search after the next round, with its agents marked, if the round
takes place. -/
def turn (s : Pursuit) : Search (Option Pursuit) := do
  Signal.check.during .widening
  match s.round with
  | .error e => throw e
  | .ok none => pure none
  | .ok (some s) =>
    let solved ← s.recheck
    pure (some (s.mark solved))

/-- **The loop consists of turns.** -/
theorem run_eq (s : Pursuit) : s.run =
    if s.isDone then pure (some s.announcement)
    else s.turn >>= fun next =>
      match next with
      | none => pure none
      | some s => s.run := by
  rw [run]
  split
  · rfl
  · unfold turn
    rw [bind_assoc]
    congr 1
    funext _
    split
    · next hr =>
      rw [hr]
      rfl
    · next hr =>
      rw [hr]
      rfl
    · next hr =>
      rw [hr]
      simp only [bind_assoc, pure_bind]

theorem returns_turn (s : Pursuit) : s.turn.Returns (s.round.map (Option.map assess)) := by
  refine Search.returns_check.during.bind_ok ?_
  rcases h : s.round with e | _ | t
  · exact Watched.returns_pure _
  · exact Search.returns_pure _
  · exact (returns_recheck t).bind_ok (Search.returns_pure _)

/-- Whatever the signal does, a turn that is completed is a round, after which all marks are
true. -/
theorem exists_round_of_turn {turned : Option Pursuit}
    (h : s.turn.run.run σ = (.ok turned, τ)) :
    ∃ r, s.round = .ok r ∧ r.map assess = turned := by
  have returned := (returns_turn s).outcome_eq_ok (congrArg Prod.fst h)
  cases hr : s.round with
  | error e =>
    rw [hr] at returned
    cases returned
  | ok r =>
    rw [hr] at returned
    exact ⟨r, rfl, Except.ok.inj returned⟩

/-- The search and the signal after one more turn, if the search is not over. -/
def next (c : Pursuit × Signal) : Option (Pursuit × Signal) :=
  if c.1.isDone then none
  else
    match c.1.turn.run.run c.2 with
    | (.ok (some s), σ) => some (s, σ)
    | _ => none

/-- The search and the signal after the given number of completed rounds, if there are as many. -/
def after (s : Pursuit) (σ : Signal) : Nat → Option (Pursuit × Signal)
  | 0 => some (s, σ)
  | n + 1 => (s.after σ n).bind next

theorem next_eq_some (h : next (s, σ) = some (t, τ)) :
    s.isDone = false ∧ s.turn.run.run σ = (.ok (some t), τ) := by
  unfold next at h
  split at h
  · cases h
  · next unsolved =>
    refine ⟨Bool.not_eq_true _ ▸ unsolved, ?_⟩
    split at h
    · next run =>
      cases h
      exact run
    · cases h

theorem exists_round_of_next (h : next (s, σ) = some (t, τ)) :
    s.isDone = false ∧ ∃ s', s.round = .ok (some s') ∧ s'.assess = t := by
  obtain ⟨unsolved, turn⟩ := next_eq_some h
  obtain ⟨r, hr, turned⟩ := exists_round_of_turn turn
  obtain ⟨s', rfl, marked⟩ := Option.map_eq_some_iff.mp turned
  exact ⟨unsolved, s', hr, marked⟩

/-- **What rounds keep.** What holds at the start, and is kept by every round after which the agents
are marked, holds after every completed round. -/
theorem after_induction {P : Nat → Pursuit → Prop} (start : P 0 s)
    (keeps : ∀ n t υ t', s.after σ n = some (t, υ) → P n t → t.isDone = false →
      t.round = .ok (some t') → P (n + 1) t'.assess)
    (h : s.after σ n = some (t, τ)) : P n t := by
  induction n generalizing t τ with
  | zero =>
    cases h
    exact start
  | succ n ih =>
    obtain ⟨⟨t₀, υ⟩, before, last⟩ := Option.bind_eq_some_iff.mp h
    obtain ⟨unsolved, t', hr, rfl⟩ := exists_round_of_next last
    exact keeps n t₀ υ t' before (ih before) unsolved hr

/-- The agents can always judge what they have not taken in. -/
theorem judgeable_after (h : ∀ p ∈ s.prospects, p.Judgeable) (ha : s.after σ n = some (t, τ)) :
    ∀ p ∈ t.prospects, p.Judgeable :=
  after_induction (P := fun _ t => ∀ p ∈ t.prospects, p.Judgeable) h
    (fun _ _ _ _ _ judgeable _ hr => judgeable_assess judgeable hr) ha

/-- **Rounds come to an end**: each leaves fewer classes. -/
theorem add_remaining_le_of_after (h : s.after σ n = some (t, τ)) :
    n + t.remaining ≤ s.remaining := by
  refine after_induction (P := fun n t => n + t.remaining ≤ s.remaining)
    (Nat.zero_add _).le (fun n t _ t' _ le unsolved hr => ?_) h
  have less : t'.assess.remaining < t.remaining :=
    remaining_mark_lt _ (Bool.not_eq_true _ ▸ unsolved) hr
  omega

theorem after_add_one (s : Pursuit) (σ : Signal) (n : Nat) :
    s.after σ (n + 1) = (next (s, σ)).bind fun c => c.1.after c.2 n := by
  induction n with
  | zero =>
    change next (s, σ) = (next (s, σ)).bind some
    rw [Option.bind_fun_some]
  | succ n ih =>
    rw [after, ih, Option.bind_assoc]
    rfl

/-- **Where a run ends.** If it does not give up, it ends after some number of completed rounds,
with the announcement at that point or because no further round takes place. -/
theorem exists_after_of_run (h : s.run.outcome σ = .ok found) :
    ∃ n t τ, s.after σ n = some (t, τ) ∧
      (t.isDone = true ∧ found = some t.announcement ∨
        t.isDone = false ∧ t.round = .ok none ∧ found = none) := by
  induction hn : s.remaining using Nat.strongRecOn generalizing s σ with
  | ind n ih =>
    subst hn
    cases done : s.isDone with
    | true =>
      rw [run_eq, if_pos done] at h
      cases h
      exact ⟨0, s, σ, rfl, Or.inl ⟨done, rfl⟩⟩
    | false =>
      have unsolved : ¬s.isDone = true := Bool.not_eq_true _ ▸ done
      rw [run_eq, if_neg unsolved] at h
      obtain ⟨turned, τ, turn, h⟩ := Search.outcome_bind_eq_ok_iff.mp h
      obtain ⟨_ | s', hr, rfl⟩ := exists_round_of_turn turn
      · cases h
        exact ⟨0, s, σ, rfl, Or.inr ⟨done, hr, rfl⟩⟩
      · obtain ⟨n, t, υ, after, ends⟩ := ih _ (remaining_mark_lt _ unsolved hr) h rfl
        refine ⟨n + 1, t, υ, ?_, ends⟩
        rw [after_add_one, next, if_neg unsolved, turn]
        exact after

end Pursuit

end BeliefRevision
