/-
Set operations on two posting lists.

* `ItemSet.apply` — the result of an operation, in the native codec unless an
  operand or a range can stand for it;
* `ItemSet.applyAs` — the result in a codec of choice;
* `ItemSet.uniteFirst` — the smallest items of a union.
-/
import Postings.Algebra.Merge
import Postings.Algebra.Writer
import Postings.ItemSet.Encode

namespace Postings.ItemSet

open Layout

/-- The merge of two lists. -/
def merge (left right : ItemSet) (op : SetOp) : Merge Cursor Cursor :=
  Merge.start op left.cursor right.cursor

/-- The result when an operand is empty: the other operand or nothing. -/
def applyEmpty? (left right : ItemSet) (op : SetOp) : Option ItemSet :=
  if left.isEmpty then
    match op with
    | .union | .symmDiff => some right
    | .inter | .diff => some empty
  else if right.isEmpty then
    match op with
    | .union | .symmDiff | .diff => some left
    | .inter => some empty
  else none

/-- The result when both operands are ranges of stride 1 and it is such a range too. -/
def applyRanges? (left right : ItemSet) (op : SetOp) : Option ItemSet :=
  match left.form, right.form with
  | .range a, .range b =>
    if a.stride = 1 ∧ b.stride = 1 then
      let low := max a.begin b.begin
      let high := min a.stop b.stop
      match op with
      | .inter =>
        if high ≤ low.toNat then some empty else (ofRange low high 1).toOption
      -- Ranges that touch make one range; all 2^32 items are too many for one.
      | .union =>
        if low.toNat ≤ high then
          (ofRange (min a.begin b.begin) (max a.stop b.stop) 1).toOption
        else none
      | .diff | .symmDiff => none
    else none
  | _, _ => none

/-- The result of an operation. -/
def apply (left right : ItemSet) (op : SetOp) : ItemSet :=
  match applyEmpty? left right op with
  | some result => result
  | none =>
    match applyRanges? left right op with
    | some result => result
    | none => Writer.collect (left.merge right op)

/-- The result of an operation in a codec. -/
def applyAs (left right : ItemSet) (op : SetOp) (codec : Codec) (tuning : Tuning) :
    Except Error ItemSet :=
  match codec with
  | .native | .vector =>
    encodeAscending (Walk.run Array.push #[] (left.merge right op)).toList codec tuning
  | codec => (left.apply right op).recode codec tuning

/-- The `count` smallest items of the union. -/
def uniteFirst (left right : ItemSet) (count : Nat) : ItemSet :=
  Writer.collectFirst count (fun _ => true) (left.merge right .union)

end Postings.ItemSet
