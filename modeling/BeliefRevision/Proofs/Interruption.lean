import BeliefRevision.Model.Watched
import BeliefRevision.Proofs.Enumeration

/-!
# Interrupted enumerations

Somebody asks an enumeration for models, one at a time, while the signal that it watches may be
raised. A single call either does what it would do in silence, and then the signal is still lowered,
or it finds the signal raised and stops the enumeration for good (`run_pull`). So any number of
calls, under any signal, are answered with the first models in their order, up to some call, and
with nothing from there on (`run_answers`). The enumeration is known to be stopped exactly if there
is such a call.

**`interrupted_models`**: if the signal is raised between calls, the calls that it cuts off are
those after it.
-/

namespace BeliefRevision

/-! ## Turns -/

/-- What happens between the one who asks for models and the one who may raise the signal. -/
inductive Turn where
  /-- A model is asked for. -/
  | call
  /-- The signal is raised. -/
  | cancel
deriving DecidableEq, Repr

namespace Turn

/-- The number of calls before the signal is raised. -/
def callsBefore (turns : List Turn) : Nat := (turns.takeWhile (· = call)).length

/-- The number of calls after the signal is raised. -/
def callsAfter (turns : List Turn) : Nat := (turns.dropWhile (· = call)).count call

theorem count_call (turns : List Turn) :
    turns.count call = callsBefore turns + callsAfter turns := by
  induction turns with
  | nil => rfl
  | cons turn turns ih =>
    cases turn with
    | call =>
      rw [List.count_cons_self, ih, callsBefore, callsAfter, callsBefore, callsAfter,
        List.takeWhile_cons_of_pos (by decide), List.dropWhile_cons_of_pos (by decide),
        List.length_cons]
      omega
    | cancel =>
      rw [callsBefore, callsAfter, List.takeWhile_cons_of_neg (by decide),
        List.dropWhile_cons_of_neg (by decide), List.length_nil, Nat.zero_add]

end Turn

/-- Nobody has raised the signal, or will raise it from elsewhere. -/
structure Signal.Undisturbed (s : Signal) : Prop where
  lowered : s.raised = false
  atReading : ∀ n, s.atReading n = false

namespace Enumeration

/-- The answers to the calls among some turns, and the enumeration that is left. -/
def answers : List Turn → Enumeration → Watched (List (Option Assignment) × Enumeration)
  | [], e => pure ([], e)
  | .cancel :: turns, e => do
    modify Signal.raise
    answers turns e
  | .call :: turns, e => do
    let (a, e) ← e.pull
    let (as, e) ← answers turns e
    pure (a :: as, e)

variable {e : Enumeration} {s : Signal} {turns : List Turn}

/-! ## Single calls -/

/-- The enumeration that was told to stop. -/
def halted (e : Enumeration) : Enumeration := { e with front := [], stopped := true }

theorem pull_eq : pull e = Signal.read >>= fun seen =>
    if seen then pure (none, e.halted)
    else
      match e.front.step e.formula.promise e.formula with
      | none => pure (none, { e with front := [] })
      | some (none, front) => pull { e with front }
      | some (some a, front) => pure (some a, { e with front }) := by
  rw [pull]
  congr 1
  funext seen
  cases seen with
  | true => rfl
  | false =>
    simp only [Bool.false_eq_true, if_false]
    split <;> simp_all

theorem next_false_eq : e.next false =
    match e.front.step e.formula.promise e.formula with
    | none => (none, { e with front := [] })
    | some (none, front) => next false { e with front }
    | some (some a, front) => (some a, { e with front }) := by
  simp only [next, Bool.false_eq_true, if_false]
  rw [Frontier.next]
  split <;> simp_all

/-- **A call under a signal** is answered as in silence while the signal stays lowered, or finds it
raised and stops the enumeration. -/
theorem run_pull (e : Enumeration) (s : Signal) :
    (s.raised = false ∧ ∃ n, (pull e).run s = (e.next false, { s with readings := n })) ∨
      ∃ s', (pull e).run s = ((none, e.halted), s') ∧ s'.raised = true ∧ ¬s.Undisturbed := by
  induction hn : e.size using Nat.strongRecOn generalizing e s with
  | ind n ih =>
    subst hn
    have run : (pull e).run s = StateT.run
        (if s.raised || s.atReading s.readings then pure (none, e.halted)
        else
          match e.front.step e.formula.promise e.formula with
          | none => pure (none, { e with front := [] })
          | some (none, front) => pull { e with front }
          | some (some a, front) => pure (some a, { e with front }) : Watched _)
        { s with raised := s.raised || s.atReading s.readings, readings := s.readings + 1 } := by
      rw [pull_eq]
      rfl
    cases seen : s.raised || s.atReading s.readings with
    | true =>
      rw [run, seen, if_pos rfl]
      refine Or.inr ⟨_, rfl, rfl, fun undisturbed => ?_⟩
      rw [undisturbed.lowered, undisturbed.atReading] at seen
      cases seen
    | false =>
      have lowered : s.raised = false := (Bool.or_eq_false_iff.mp seen).1
      have state : ({ s with raised := false, readings := s.readings + 1 } : Signal) =
          { s with readings := s.readings + 1 } := by rw [← lowered]
      rw [run, seen, if_neg Bool.false_ne_true, state, next_false_eq]
      cases hstep : e.front.step e.formula.promise e.formula with
      | none => exact Or.inl ⟨lowered, _, rfl⟩
      | some found =>
        obtain ⟨_ | a, front⟩ := found
        · have smaller : size { e with front } < e.size := Frontier.size_step_lt hstep
          rcases ih _ smaller { e with front } { s with readings := s.readings + 1 } rfl with
            ⟨-, n, rest⟩ | ⟨s', rest, raised, disturbed⟩
          · exact Or.inl ⟨lowered, n, rest⟩
          · refine Or.inr ⟨s', rest, raised, fun undisturbed => disturbed ?_⟩
            exact ⟨undisturbed.lowered, undisturbed.atReading⟩
        · exact Or.inl ⟨lowered, _, rfl⟩

/-! ## Runs -/

/-- The models still to come. -/
def remaining (e : Enumeration) : List Assignment := e.front.models e.formula.promise e.formula

/-- The first call in silence is answered with the first of the remaining models. -/
theorem map_range_succ_remaining (e : Enumeration) (n : Nat) :
    (List.range (n + 1)).map (e.remaining[·]?) =
      (e.next false).1 :: (List.range n).map ((e.next false).2.remaining[·]?) := by
  have split : e.remaining = (e.next false).1.toList ++ (e.next false).2.remaining :=
    Frontier.models_eq_next _ _ _
  cases found : (e.next false).1 with
  | some a =>
    rw [found, Option.toList_some, List.singleton_append] at split
    rw [split, List.range_succ_eq_map, List.map_cons, List.map_map]
    rfl
  | none =>
    have dry : (e.next false).2.remaining = [] := by
      change Frontier.models _ _ (Frontier.next _ _ _).2 = []
      rw [Frontier.next_eq_nil found, Frontier.models_of_step_eq_none rfl]
    rw [found, Option.toList_none, List.nil_append, dry] at split
    rw [split, dry, List.range_succ_eq_map, List.map_cons, List.map_map]
    rfl

theorem run_answers_call {r : Option Assignment × Enumeration} {s' : Signal}
    (h : (pull e).run s = (r, s')) :
    ((answers (.call :: turns) e).run s).1 =
      (r.1 :: ((answers turns r.2).run s').1.1, ((answers turns r.2).run s').1.2) := by
  rw [answers, StateT.run_bind, h]
  rfl

theorem run_answers_cancel :
    (answers (.cancel :: turns) e).run s = (answers turns e).run s.raise := rfl

/-- Once the signal is raised, no call is answered with a model. -/
theorem run_answers_of_raised (turns : List Turn) (e : Enumeration) (h : s.raised = true) :
    ((answers turns e).run s).1.1 = List.replicate (turns.count .call) none ∧
    ((answers turns e).run s).1.2.stopped = (e.stopped || decide (0 < turns.count .call)) := by
  induction turns generalizing e s with
  | nil => exact ⟨rfl, (Bool.or_false _).symm⟩
  | cons turn turns ih =>
    cases turn with
    | cancel =>
      rw [run_answers_cancel]
      exact ih e rfl
    | call =>
      rcases run_pull e s with ⟨lowered, -⟩ | ⟨s', run, raised, -⟩
      · cases lowered.symm.trans h
      · obtain ⟨none, stopped⟩ := ih e.halted raised
        rw [run_answers_call run, none, stopped, List.count_cons_self]
        refine ⟨rfl, ?_⟩
        rw [decide_eq_true (Nat.succ_pos _), Bool.or_true]
        rfl

/-- **Calls under any signal** are answered with the first of the remaining models, up to some call,
and with nothing from there on; in the latter case the enumeration is stopped. If nobody else raises
the signal, this begins with the first call after it is raised. -/
theorem run_answers (turns : List Turn) (e : Enumeration) (s : Signal) :
    ∃ seen unseen, seen + unseen = turns.count .call ∧
      ((answers turns e).run s).1.1 =
        (List.range seen).map (e.remaining[·]?) ++ List.replicate unseen none ∧
      ((answers turns e).run s).1.2.stopped = (e.stopped || decide (0 < unseen)) ∧
      (s.Undisturbed → seen = Turn.callsBefore turns) := by
  induction turns generalizing e s with
  | nil => exact ⟨0, 0, rfl, rfl, (Bool.or_false _).symm, fun _ => rfl⟩
  | cons turn turns ih =>
    cases turn with
    | cancel =>
      rw [run_answers_cancel]
      obtain ⟨none, stopped⟩ := run_answers_of_raised turns e (s := s.raise) rfl
      exact ⟨0, turns.count Turn.call, Nat.zero_add _, none, stopped, fun _ => rfl⟩
    | call =>
      rcases run_pull e s with ⟨lowered, n, run⟩ | ⟨s', run, raised, disturbed⟩
      · obtain ⟨seen, unseen, total, rest, stopped, before⟩ :=
          ih (e.next false).2 { s with readings := n }
        refine ⟨seen + 1, unseen, ?_, ?_, ?_, fun undisturbed => ?_⟩
        · rw [List.count_cons_self, ← total, Nat.add_right_comm]
        · rw [run_answers_call run, rest, map_range_succ_remaining]
          rfl
        · rw [run_answers_call run, stopped]
          rfl
        · rw [before ⟨lowered, undisturbed.atReading⟩]
          rfl
      · obtain ⟨none, stopped⟩ := run_answers_of_raised turns e.halted raised
        refine ⟨0, turns.count Turn.call + 1, ?_, ?_, ?_, fun undisturbed => ?_⟩
        · rw [List.count_cons_self, Nat.zero_add]
        · rw [run_answers_call run, none]
          rfl
        · rw [run_answers_call run, stopped, decide_eq_true (Nat.succ_pos _), Bool.or_true]
          rfl
        · exact absurd undisturbed disturbed

end Enumeration

/-- The models among answers that are given in order and end with some that hold none. -/
theorem filterMap_answers {α : Type} (as : List α) (n m : Nat) :
    ((List.range n).map (as[·]?) ++ List.replicate m none).filterMap id = as.take n := by
  have silent : (List.replicate m (none : Option α)).filterMap id = [] := by simp
  rw [List.filterMap_append, silent, List.append_nil, List.filterMap_map]
  induction n with
  | zero => rfl
  | succ n ih =>
    rw [List.range_succ, List.filterMap_append, ih, List.take_add_one]
    cases h : as[n]? <;> simp [h]

namespace Formula

/-- The answers to the calls among some turns, and the enumeration of the formula's models that is
left. -/
def session (p : Formula) (turns : List Turn) (s : Signal) :
    List (Option Assignment) × Enumeration := ((Enumeration.answers turns p.enumerate).run s).1

variable {p : Formula} {turns : List Turn} {s : Signal}

theorem session_eq (p : Formula) (turns : List Turn) (s : Signal) :
    ∃ seen unseen, seen + unseen = Turn.callsBefore turns + Turn.callsAfter turns ∧
      (p.session turns s).1 =
        (List.range seen).map (p.models[·]?) ++ List.replicate unseen none ∧
      (p.session turns s).2.stopped = decide (0 < unseen) ∧
      (s.Undisturbed → seen = Turn.callsBefore turns) := by
  obtain ⟨seen, unseen, total, answers, stopped, before⟩ :=
    Enumeration.run_answers turns p.enumerate s
  exact ⟨seen, unseen, total.trans (Turn.count_call turns), answers, stopped, before⟩

/-- Whatever raises the signal, the models that calls are answered with are the first ones. -/
theorem session_prefix (p : Formula) (turns : List Turn) (s : Signal) :
    (p.session turns s).1.filterMap id <+: p.models := by
  obtain ⟨seen, unseen, -, answers, -, -⟩ := p.session_eq turns s
  rw [answers, filterMap_answers]
  exact List.take_prefix seen p.models

/-- An enumeration that has run dry without being stopped has yielded all models. -/
theorem session_complete (stopped : (p.session turns s).2.stopped = false)
    (dry : none ∈ (p.session turns s).1) : (p.session turns s).1.filterMap id = p.models := by
  obtain ⟨seen, unseen, -, answers, flag, -⟩ := p.session_eq turns s
  rw [flag, decide_eq_false_iff_not, Nat.not_lt, Nat.le_zero] at stopped
  subst stopped
  rw [answers, List.replicate_zero, List.append_nil, List.mem_map] at dry
  obtain ⟨i, hi, none⟩ := dry
  rw [answers, filterMap_answers]
  refine List.take_of_length_le (Nat.le_trans ?_ (Nat.le_of_lt (List.mem_range.mp hi)))
  exact List.getElem?_eq_none_iff.mp none

end Formula

/-- **Interrupted enumerations yield the first models and can be told from complete ones.** Calls
before the signal is raised are answered with the models in their order, as far as there are any,
and calls after it with nothing. The enumeration is known to be stopped exactly if there is a call
after it. Even if the signal is raised in the midst of a call, the models that were yielded are the
first ones, and they are all there are if some call got none from an enumeration that is not
stopped. -/
theorem interrupted_models (p : Formula) (turns : List Turn) :
    (p.session turns {}).1 = (List.range (Turn.callsBefore turns)).map (p.models[·]?) ++
      List.replicate (Turn.callsAfter turns) none ∧
    ((p.session turns {}).2.stopped = true ↔ 0 < Turn.callsAfter turns) ∧
    ∀ s : Signal, (p.session turns s).1.filterMap id <+: p.models ∧
      ((p.session turns s).2.stopped = false → none ∈ (p.session turns s).1 →
        (p.session turns s).1.filterMap id = p.models ∧
          ∀ a, p.IsModel a → some a ∈ (p.session turns s).1) := by
  obtain ⟨seen, unseen, total, answers, stopped, before⟩ := p.session_eq turns {}
  obtain rfl : seen = Turn.callsBefore turns := before ⟨rfl, fun _ => rfl⟩
  obtain rfl : unseen = Turn.callsAfter turns := Nat.add_left_cancel total
  refine ⟨answers, by rw [stopped, decide_eq_true_iff], fun s => ⟨p.session_prefix turns s, ?_⟩⟩
  intro unstopped dry
  have all := Formula.session_complete unstopped dry
  refine ⟨all, fun a ha => ?_⟩
  rw [← Formula.mem_models, ← all, List.mem_filterMap] at ha
  obtain ⟨_, mem, rfl⟩ := ha
  exact mem

/-- A disjunction with three models, asked for four, and interrupted after the first. -/
theorem interrupted_models_or :
    ((Formula.join .or [.var "p", .var "q"]).session [.call, .call, .call, .call] {}).2.stopped =
      false ∧
    none ∈ ((Formula.join .or [.var "p", .var "q"]).session [.call, .call, .call, .call] {}).1 ∧
    ((Formula.join .or [.var "p", .var "q"]).session
      [.call, .call, .call, .call] {}).1.filterMap id =
        (Formula.join .or [.var "p", .var "q"]).models ∧
    ((Formula.join .or [.var "p", .var "q"]).session [.call, .cancel, .call] {}).1 =
      [(Formula.join .or [.var "p", .var "q"]).models[0]?, none] := by
  have stopped : ((Formula.join .or [.var "p", .var "q"]).session
      [.call, .call, .call, .call] {}).2.stopped = false := by decide +kernel
  have dry : none ∈ ((Formula.join .or [.var "p", .var "q"]).session
      [.call, .call, .call, .call] {}).1 := by decide +kernel
  exact ⟨stopped, dry, ((interrupted_models _ _).2.2 {} |>.2 stopped dry).1,
    (interrupted_models _ [.call, .cancel, .call]).1⟩

end BeliefRevision
