/-!
# Ranked lists

A ranked list runs from the highest key to the lowest, and entries with equal keys stand in the
order in which they were inserted. Keys are the 64-bit words that `orderKey` makes of floating-point
numbers.
-/

namespace BeliefRevision

/-- A word that grows with a floating-point number: numbers are compared by sign, then by magnitude,
and every bit pattern has a place of its own. -/
def orderKey (x : Float) : UInt64 :=
  let bits := x.toBits
  if bits >>> 63 = 1 then ~~~bits else bits ||| 0x8000000000000000

/-- Inserts an entry behind all entries whose key is at least its own. -/
def insertRanked {α : Type} (key : α → UInt64) (x : α) : List α → List α
  | [] => [x]
  | y :: ys => if key y < key x then x :: y :: ys else y :: insertRanked key x ys

/-- Ranks a list by inserting its entries one after another. -/
def ranked {α : Type} (key : α → UInt64) (xs : List α) : List α :=
  xs.foldl (fun ys x => insertRanked key x ys) []

variable {α : Type} {key : α → UInt64}

theorem insertRanked_perm (x : α) (ys : List α) : (insertRanked key x ys).Perm (x :: ys) := by
  induction ys with
  | nil => exact .rfl
  | cons y ys ih =>
    rw [insertRanked]
    split
    · exact .rfl
    · exact (ih.cons y).trans (.swap x y ys)

theorem ranked_perm (xs : List α) : (ranked key xs).Perm xs := by
  suffices ∀ ys, (xs.foldl (fun ys x => insertRanked key x ys) ys).Perm (xs ++ ys) by
    simpa [ranked] using this []
  induction xs with
  | nil => exact fun _ => .rfl
  | cons x xs ih =>
    exact fun ys => (ih _).trans (((insertRanked_perm x ys).append_left xs).trans List.perm_middle)

end BeliefRevision
