import BeliefRevision.Formula.Degree
import BeliefRevision.Formula.Evaluation
import BeliefRevision.Formula.Influence

/-!
# Enumeration of models

A model of a formula is an assignment to exactly its variables that makes it true. Models are found
one at a time by a best-first search over partial assignments. A branch of the search is a partial
assignment together with the variables that it still has to assign, always in the same order, most
influential first. Branches on which the formula is settled as false are dropped. The most promising
branch comes first, and of equals the oldest. `Formula.promise` goes by the degree of truth; the
search itself takes any measure of promise and any order of the variables.

`Frontier.step` explores one branch. `Frontier.next` takes steps up to the next model, and
`Frontier.models` takes them to the end.

An enumeration can be told to stop. It then forgets its branches and yields nothing more, like one
that has run dry; `Enumeration.stopped` tells the two apart.

The search ends because a branch is replaced by at most two with one variable less to assign:
`Branch.size` counts the branches that can still come from one, and every step lowers the total.
-/

namespace BeliefRevision

/-- A partial assignment of the search. -/
structure Branch where
  /-- The values given so far. -/
  assignment : Assignment
  /-- The variables still to be given a value, next one first. -/
  pending : List Variable
  /-- The value of the formula as far as it is settled. -/
  value : Option Bool
  /-- The place among the branches, by promise. -/
  rank : UInt64

namespace Branch

/-- The number of branches that can come from one that still has the given variables to assign, the
branch itself included. -/
def reach : List Variable → Nat
  | [] => 1
  | _ :: vs => 2 * reach vs + 1

/-- The number of branches that can come from a branch, itself included. -/
def size (b : Branch) : Nat := reach b.pending

theorem size_pos (b : Branch) : 0 < b.size := by
  rw [size]
  cases b.pending <;> exact Nat.succ_pos _

end Branch

/-- The branches still to be explored, first one first. -/
abbrev Frontier := List Branch

namespace Frontier

/-- The number of branches that can still be explored. -/
def size : Frontier → Nat
  | [] => 0
  | b :: front => b.size + size front

variable (promise : Assignment → UInt64) (p : Formula)

/-- Adds a partial assignment of the formula's variables, unless it settles the formula as false. -/
def push (a : Assignment) (pending : List Variable) (front : Frontier) : Frontier :=
  match p.value? a with
  | some false => front
  | value => insertRanked Branch.rank ⟨a, pending, value, promise a⟩ front

theorem size_lt_size_cons (b : Branch) (front : Frontier) : size front < size (b :: front) :=
  Nat.lt_add_of_pos_left b.size_pos

theorem size_insertRanked (b : Branch) (front : Frontier) :
    size (insertRanked Branch.rank b front) = b.size + size front := by
  induction front with
  | nil => rfl
  | cons c front ih =>
    rw [insertRanked]
    split
    · rfl
    · rw [size, size, ih]
      omega

theorem size_push_le (a : Assignment) (pending : List Variable) (front : Frontier) :
    size (push promise p a pending front) ≤ Branch.reach pending + size front := by
  rw [push]
  split
  · exact Nat.le_add_left _ _
  · rw [size_insertRanked]
    exact Nat.le_refl _

/-- The branches of the search before its first step. -/
def root (order : List Variable) : Frontier := push promise p ∅ order []

/-- The frontier after the first of its branches has been split on its next variable `v`. -/
def split (a : Assignment) (v : Variable) (vs : List Variable) (front : Frontier) : Frontier :=
  push promise p (a.insert v false) vs (push promise p (a.insert v true) vs front)

/-- The two branches that assign the first pending variable are together smaller than the one that
they replace. -/
theorem size_split_lt (a : Assignment) (v : Variable) (vs : List Variable) (value : Option Bool)
    (rank : UInt64) (front : Frontier) :
    size (split promise p a v vs front) < size (⟨a, v :: vs, value, rank⟩ :: front) := by
  have h₁ := size_push_le promise p (a.insert v true) vs front
  have h₂ := size_push_le promise p (a.insert v false) vs
    (push promise p (a.insert v true) vs front)
  rw [split, size, Branch.size, Branch.reach]
  omega

/-- Explores the first branch, if there is one: splits it, or, if nothing is left to assign, tells
whether it is a model. -/
def step : Frontier → Option (Option Assignment × Frontier)
  | [] => none
  | ⟨a, [], value, _⟩ :: front => some (if value = some true then some a else none, front)
  | ⟨a, v :: vs, _, _⟩ :: front => some (none, split promise p a v vs front)

variable {promise p}

theorem size_step_lt {front front' : Frontier} {found : Option Assignment}
    (h : step promise p front = some (found, front')) : size front' < size front := by
  match front with
  | [] => cases h
  | ⟨a, [], value, rank⟩ :: rest =>
    cases h
    exact size_lt_size_cons _ _
  | ⟨a, v :: vs, value, rank⟩ :: rest =>
    cases h
    exact size_split_lt promise p a v vs value rank rest

variable (promise p)

/-- Explores the frontier up to the next model, and returns it with the frontier that is left. -/
def next (front : Frontier) : Option Assignment × Frontier :=
  match _h : step promise p front with
  | none => (none, [])
  | some (some a, front) => (some a, front)
  | some (none, front) => next front
termination_by size front
decreasing_by exact size_step_lt _h

/-- All models that the frontier leads to, in the order of exploration. -/
def models (front : Frontier) : List Assignment :=
  match _h : step promise p front with
  | none => []
  | some (found, front) => found.toList ++ models front
termination_by size front
decreasing_by exact size_step_lt _h

variable {promise p}

theorem models_of_step_eq_none {front : Frontier} (h : step promise p front = none) :
    models promise p front = [] := by
  rw [models]
  split <;> simp_all

theorem models_of_step_eq_some {front front' : Frontier} {found : Option Assignment}
    (h : step promise p front = some (found, front')) :
    models promise p front = found.toList ++ models promise p front' := by
  rw [models]
  split <;> simp_all

variable (promise p)

/-- Taking the next model splits the models of the frontier into the first and the others. -/
theorem models_eq_next (front : Frontier) :
    models promise p front =
      (next promise p front).1.toList ++ models promise p (next promise p front).2 := by
  fun_induction next promise p front with
  | case1 front h =>
    rw [models_of_step_eq_none h, models_of_step_eq_none rfl]
    rfl
  | case2 front a rest h => rw [models_of_step_eq_some h]
  | case3 front rest h ih =>
    rw [models_of_step_eq_some h, ← ih, Option.toList_none, List.nil_append]

/-- Finding a model leaves a smaller frontier. -/
theorem size_next_lt {front : Frontier} {a : Assignment}
    (h : (next promise p front).1 = some a) :
    size (next promise p front).2 < size front := by
  fun_induction next promise p front with
  | case1 => cases h
  | case2 _ _ _ hs => exact size_step_lt hs
  | case3 _ _ hs ih => exact Nat.lt_trans (ih h) (size_step_lt hs)

end Frontier

/-- How promising a partial assignment is: its place by the degree of truth of the formula. -/
def Formula.promise (p : Formula) (a : Assignment) : UInt64 := orderKey (p.truthiness a)

/-- A search for the models of a formula, under way. -/
structure Enumeration where
  /-- The formula whose models are sought. -/
  formula : Formula
  /-- The branches still to be explored. -/
  front : Frontier
  /-- Whether the search was told to stop. -/
  stopped : Bool := false

/-- The search for the models of a formula, before its first step. -/
def Formula.enumerate (p : Formula) : Enumeration := ⟨p, .root p.promise p p.branchingOrder, false⟩

/-- The models of a formula, in the order in which they are found. -/
def Formula.models (p : Formula) : List Assignment :=
  Frontier.models p.promise p (.root p.promise p p.branchingOrder)

namespace Enumeration

/-- The next model, if there is one and the search is not told to stop before it is found. -/
def next (stop : Bool) (e : Enumeration) : Option Assignment × Enumeration :=
  if stop then (none, { e with front := [], stopped := true })
  else
    let (model, front) := Frontier.next e.formula.promise e.formula e.front
    (model, { e with front })

/-- A bound on the models still to come. -/
def size (e : Enumeration) : Nat := Frontier.size e.front

/-- Finding a model leaves a smaller search. -/
theorem size_lt_of_next_eq_some {stop : Bool} {e e' : Enumeration} {a : Assignment}
    (h : e.next stop = (some a, e')) : e'.size < e.size := by
  cases stop with
  | true => simp [next] at h
  | false =>
    simp only [next, Bool.false_eq_true, if_false, Prod.mk.injEq] at h
    exact h.2 ▸ Frontier.size_next_lt _ _ h.1

/-- Up to `n` further models; the search is asked for no more than these. -/
def take (stop : Bool) : Nat → Enumeration → List Assignment × Enumeration
  | 0, e => ([], e)
  | n + 1, e =>
    match e.next stop with
    | (none, e) => ([], e)
    | (some a, e) =>
      let (rest, e) := take stop n e
      (a :: rest, e)

/-- All further models. -/
def drain (stop : Bool) (e : Enumeration) : List Assignment × Enumeration :=
  match _h : e.next stop with
  | (none, e) => ([], e)
  | (some a, e) =>
    let (rest, e) := drain stop e
    (a :: rest, e)
termination_by e.size
decreasing_by exact size_lt_of_next_eq_some _h

end Enumeration

end BeliefRevision
