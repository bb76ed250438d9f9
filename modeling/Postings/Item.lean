/-
Items and the order that every stored list of them keeps.

A posting list is a strictly ascending list of 32-bit items.  This module has
the item type and the test for that order:

* `firstDescent?` — the first position whose item does not exceed the one
  before it, or `none` when the list strictly ascends;
* `firstDescent?_eq_none` — it is `none` exactly on the strictly ascending lists;
* `distinct` — the members of a list in ascending order.
-/

namespace Postings

/-- A member of a posting list. -/
abbrev Item := UInt32

/-- The first position in `previous :: items`, counted from `position` for the head of `items`,
whose item does not exceed the one before it. -/
def firstDescentFrom (previous : Item) (position : Nat) : List Item → Option Nat
  | [] => none
  | item :: rest =>
    if previous < item then firstDescentFrom item (position + 1) rest else some position

/-- The first position whose item does not exceed the one before it. -/
def firstDescent? : List Item → Option Nat
  | [] => none
  | item :: rest => firstDescentFrom item 1 rest

/-- Every item exceeds all items before it. -/
def Ascending (items : List Item) : Prop :=
  items.Pairwise (· < ·)

instance (items : List Item) : Decidable (Ascending items) :=
  inferInstanceAs (Decidable (items.Pairwise (· < ·)))

/-- Puts an item before a list that starts with it or with a greater one. -/
def consDistinct (item : Item) : List Item → List Item
  | [] => [item]
  | first :: rest => if item = first then first :: rest else item :: first :: rest

/-- The members of a list in ascending order, each once. -/
def distinct (items : List Item) : List Item :=
  (items.mergeSort (· ≤ ·)).foldr consDistinct []

theorem firstDescentFrom_eq_none {previous : Item} {position : Nat} {items : List Item} :
    firstDescentFrom previous position items = none ↔ Ascending (previous :: items) := by
  induction items generalizing previous position with
  | nil => simp [firstDescentFrom, Ascending]
  | cons item rest ih =>
    simp only [firstDescentFrom]
    split
    next h =>
      rw [ih]
      constructor
      · intro hs
        refine List.pairwise_cons.2 ⟨fun x hx => ?_, hs⟩
        rcases List.mem_cons.1 hx with rfl | hx
        · exact h
        · exact UInt32.lt_trans h ((List.pairwise_cons.1 hs).1 x hx)
      · exact fun hs => (List.pairwise_cons.1 hs).2
    next h =>
      simp only [reduceCtorEq, false_iff]
      exact fun hs => h ((List.pairwise_cons.1 hs).1 item (List.mem_cons_self ..))

theorem firstDescent?_eq_none {items : List Item} :
    firstDescent? items = none ↔ Ascending items := by
  cases items with
  | nil => simp [firstDescent?, Ascending]
  | cons item rest => exact firstDescentFrom_eq_none

end Postings
