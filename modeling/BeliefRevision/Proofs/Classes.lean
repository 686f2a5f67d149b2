import BeliefRevision.Proofs.Comparison

/-!
# Classes hold what they are made of

Sorting a list of assignments and cutting it into classes of ties neither adds nor drops any.
-/

namespace BeliefRevision

namespace Comparison

variable {cmp : Comparison}

theorem insertFarthest_perm (a : Assignment) (sorted : List Assignment) :
    (cmp.insertFarthest a sorted).Perm (a :: sorted) := by
  induction sorted with
  | nil => exact .rfl
  | cons b bs ih =>
    unfold insertFarthest
    split
    · exact (ih.cons b).trans (.swap a b bs)
    · exact .rfl

theorem sortFarthest_perm (as : List Assignment) : (cmp.sortFarthest as).Perm as := by
  have main : ∀ as sorted : List Assignment,
      (as.foldl (fun sorted a => cmp.insertFarthest a sorted) sorted).Perm (as ++ sorted) := by
    intro as
    induction as with
    | nil => exact fun sorted => .rfl
    | cons a as ih =>
      intro sorted
      have inserted : (as ++ cmp.insertFarthest a sorted).Perm (as ++ a :: sorted) :=
        (insertFarthest_perm a sorted).append_left as
      exact (ih _).trans (inserted.trans List.perm_middle)
  simpa [sortFarthest] using main as []

theorem flatten_groupTies (head : Assignment) (ties as : List Assignment) :
    (cmp.groupTies head ties as).flatten = head :: ties ++ as := by
  induction as generalizing head ties with
  | nil => simp [groupTies]
  | cons a as ih =>
    unfold groupTies
    split
    · rw [ih, List.cons_append, List.append_assoc]
      rfl
    · rw [List.flatten_cons, ih]
      rfl

theorem classes_perm (as : List Assignment) : (cmp.classes as).flatten.Perm as := by
  have sorted : (cmp.sortFarthest as).reverse.Perm as :=
    (List.reverse_perm _).trans (sortFarthest_perm as)
  unfold classes
  cases h : (cmp.sortFarthest as).reverse with
  | nil =>
    rw [h] at sorted
    exact sorted
  | cons a rest =>
    rw [h] at sorted
    dsimp only
    rw [flatten_groupTies]
    exact sorted

end Comparison

end BeliefRevision
