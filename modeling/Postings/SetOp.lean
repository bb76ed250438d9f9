/-
The set operations of the merge engine.

An operation is fixed by what it keeps: items of the left operand alone, of the
right operand alone, and of both.  `SetOp.sizeBound` bounds the result's size
from the sizes of the operands.
-/

namespace Postings

/-- A binary operation on sets. -/
inductive SetOp where
  | union
  | inter
  /-- Items of the left operand that are not in the right one. -/
  | diff
  /-- Items of exactly one operand. -/
  | symmDiff
  deriving DecidableEq, Repr, Inhabited

namespace SetOp

/-- Keeps an item that only the left operand holds. -/
def keepsLeft : SetOp → Bool
  | union | diff | symmDiff => true
  | inter => false

/-- Keeps an item that only the right operand holds. -/
def keepsRight : SetOp → Bool
  | union | symmDiff => true
  | inter | diff => false

/-- Keeps an item that both operands hold. -/
def keepsBoth : SetOp → Bool
  | union | inter => true
  | diff | symmDiff => false

/-- An upper bound on the size of a result. -/
def sizeBound (left right : Nat) : SetOp → Nat
  | union | symmDiff => left + right
  | inter => min left right
  | diff => left

/-- The full name. -/
def fullName : SetOp → String
  | union => "Union"
  | inter => "Intersection"
  | diff => "Difference"
  | symmDiff => "SymmetricDifference"

end SetOp

end Postings
