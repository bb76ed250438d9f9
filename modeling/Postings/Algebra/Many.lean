/-
Unions and intersections of any number of posting lists, as balanced trees of
binary operations.

* `ItemSet.uniteAll`, `ItemSet.intersectAll` — empty when there is no list;
* `ItemSet.combine` — an operation applied to lists from left to right.
-/
import Postings.Algebra.Apply

namespace Postings.ItemSet

/-- Lists in ascending order of size; lists of one size keep their order. -/
def bySize (sets : List ItemSet) : List ItemSet :=
  sets.mergeSort fun left right => left.size ≤ right.size

/-- An operation over the halves of the lists, down to single lists. -/
def applyTree (op : SetOp) : List ItemSet → ItemSet
  | [] => empty
  | [set] => set
  | first :: second :: rest =>
    let sets := first :: second :: rest
    let half := sets.length / 2
    (applyTree op (sets.take half)).apply (applyTree op (sets.drop half)) op
termination_by sets => sets.length
decreasing_by
  · simp only [List.length_take, List.length_cons]; omega
  · simp only [List.length_drop, List.length_cons]; omega

/-- The union of all lists. -/
def uniteAll (sets : List ItemSet) : ItemSet :=
  applyTree .union sets

/-- The intersection of all lists, the smaller ones first. -/
def intersectAll (sets : List ItemSet) : ItemSet :=
  if sets.any isEmpty then empty else applyTree .inter (bySize sets)

/-- An operation over a list of operands: the union or the intersection of all, or the first
operand with every other one taken out or toggled in turn. -/
def combine (op : SetOp) (sets : List ItemSet) : ItemSet :=
  match op, sets with
  | .union, sets => uniteAll sets
  | .inter, sets => intersectAll sets
  | _, [] => empty
  | op, first :: rest => rest.foldl (fun left right => left.apply right op) first

end Postings.ItemSet
