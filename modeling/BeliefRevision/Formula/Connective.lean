/-!
# Connectives

Formulas are joined by seven connectives of three shapes. Negation takes one operand. The two
junctions, `and` and `or`, take any number of operands and absorb nested junctions of their own
kind. The binary connectives `then`, `iff`, `xor` and `nand` take two. Each has a truth table on
known operands and one on operands that may be unknown.

A junction is settled by one operand of its `absorbing` value, false for `and` and true for `or`,
so both junctions share every definition below.
-/

namespace BeliefRevision

/-- A connective of any number of operands, whose nested occurrences are flattened. -/
inductive Junction where
  /-- True when every operand is. -/
  | and
  /-- True when some operand is. -/
  | or
deriving DecidableEq, Repr

/-- A connective of exactly two operands. -/
inductive Binary where
  /-- False only when the first operand is true and the second false. -/
  | implies
  /-- True when both operands are equal. -/
  | iff
  /-- True when the operands differ. -/
  | xor
  /-- False only when both operands are true. -/
  | nand
deriving DecidableEq, Repr

/-- Any of the connectives. -/
inductive Connective where
  /-- Negation. -/
  | negation
  /-- One of `and`, `or`. -/
  | junction (j : Junction)
  /-- One of `then`, `iff`, `xor`, `nand`. -/
  | binary (b : Binary)
deriving DecidableEq, Repr

namespace Junction

/-- The operand value that settles the junction on its own. -/
def absorbing : Junction → Bool
  | .and => false
  | .or => true

/-- The value on known operands: the absorbing one if it occurs, its opposite if it does not. -/
def value (j : Junction) (operands : List Bool) : Bool :=
  if j.absorbing ∈ operands then j.absorbing else !j.absorbing

/-- The value on operands that may be unknown, if they settle it. -/
def value? (j : Junction) (operands : List (Option Bool)) : Option Bool :=
  if some j.absorbing ∈ operands then some j.absorbing
  else if operands.all fun o => o == some !j.absorbing then some !j.absorbing
  else none

/-- The word that the connective is written with. -/
def keyword : Junction → String
  | .and => "and"
  | .or => "or"

/-- The place of the connective among all connectives. -/
def rank : Junction → Nat
  | .and => 1
  | .or => 2

end Junction

namespace Binary

/-- The value on known operands. -/
def value : Binary → Bool → Bool → Bool
  | .implies, a, b => !a || b
  | .iff, a, b => a == b
  | .xor, a, b => a != b
  | .nand, a, b => !(a && b)

/-- The values that an operand may still take. -/
def outcomes : Option Bool → List Bool
  | some b => [b]
  | none => [false, true]

/-- The value on operands that may be unknown, if every row of the truth table that they may
still reach gives the same one. -/
def value? (op : Binary) (a b : Option Bool) : Option Bool :=
  match (outcomes a).flatMap fun x => (outcomes b).map fun y => op.value x y with
  | [] => none
  | first :: others => if ∀ o ∈ others, o = first then some first else none

/-- The word that the connective is written with. -/
def keyword : Binary → String
  | .implies => "then"
  | .iff => "iff"
  | .xor => "xor"
  | .nand => "nand"

/-- The place of the connective among all connectives. -/
def rank : Binary → Nat
  | .implies => 3
  | .iff => 4
  | .xor => 5
  | .nand => 6

end Binary

namespace Connective

/-- The number of operands, or `none` where any number is taken. -/
def arity : Connective → Option Nat
  | negation => some 1
  | junction _ => none
  | binary _ => some 2

/-- Whether nested operands of the same connective are flattened. -/
def isAssociative (c : Connective) : Bool := c.arity.isNone

/-- The word that the connective is written with. -/
def keyword : Connective → String
  | negation => "not"
  | junction j => j.keyword
  | binary b => b.keyword

/-- All connectives, in their order. -/
def all : List Connective :=
  [negation, junction .and, junction .or, binary .implies, binary .iff, binary .xor, binary .nand]

/-- The connective that is written with the given word. -/
def ofKeyword? (word : String) : Option Connective :=
  all.find? fun c => c.keyword == word

end Connective

end BeliefRevision
