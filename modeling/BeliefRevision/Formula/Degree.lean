import BeliefRevision.Assignment.Basic

/-!
# Degrees of truth

The degree of a formula reads every variable without a value as true with probability one half, and
all operands of a connective as independent. It is computed in any number system that has the
operations needed: the search for models ranks partial assignments by the degree in floating-point
numbers, and over the rationals the degree is exact.

The order of operations is part of the definition, since floating-point arithmetic rounds: products
run from left to right starting with one, and a binary connective adds up the rows of its truth
table in the order (false, false), (true, false), (false, true), (true, true).
-/

namespace BeliefRevision

variable {α : Type} [OfNat α 0] [OfNat α 1] [Add α] [Sub α] [Mul α]

/-- The product of a list, from left to right. -/
def product (xs : List α) : α := xs.foldl (· * ·) 1

namespace Junction

/-- The degree of a junction of independent operands. -/
def degree : Junction → List α → α
  | and, xs => product xs
  | or, xs => 1 - product (xs.map fun x => 1 - x)

end Junction

namespace Binary

/-- The degree of a binary connective of independent operands: that of its true rows together. -/
def degree (op : Binary) (x y : α) : α :=
  let rows := [(false, false), (true, false), (false, true), (true, true)]
  let chance (b : Bool) (z : α) : α := if b then z else 1 - z
  let chances := (rows.filter fun (a, b) => op.value a b).map fun (a, b) =>
    product [chance a x, chance b y]
  chances.foldl (· + ·) 0

end Binary

namespace Formula

mutual

/-- The degree of a formula, where a variable without a value counts as `half`. -/
def degree (half : α) (a : Assignment) : Formula → α
  | var v =>
    match a[v]? with
    | some true => 1
    | some false => 0
    | none => half
  | top => 1
  | bot => 0
  | not p => 1 - degree half a p
  | join j ps => j.degree (degrees half a ps)
  | binary op p q => op.degree (degree half a p) (degree half a q)

/-- The degrees of a list of formulas. -/
def degrees (half : α) (a : Assignment) : List Formula → List α
  | [] => []
  | p :: ps => degree half a p :: degrees half a ps

end

/-- The degree in floating-point numbers. -/
def truthiness (a : Assignment) (p : Formula) : Float := degree (0.5 : Float) a p

end Formula

end BeliefRevision
