/-
Streams of items that end.

A `Source` gives its items one at a time together with what is left of it, and
bounds how many are left.  Everything here is a loop on that bound:

* `foldl`, `toArray` — consume a source;
* `take` — the first items of a source, which may be far longer;
* `descent?` — the first item that does not exceed the one before it;
* `beq` — whether two sources give the same items.

Design notes: a source is a value.  Asking for its next item does not change it,
so a source can be kept and read again.
-/
import Postings.Item

namespace Postings

/-- A stream of items that ends. -/
class Source (σ : Type) where
  /-- The next item and the stream after it. -/
  next? : σ → Option (Item × σ)
  /-- A bound on the number of items left. -/
  left : σ → Nat
  left_lt : ∀ {s s' : σ} {item : Item}, next? s = some (item, s') → left s' < left s

namespace Source

variable {σ τ β : Type} [Source σ] [Source τ]

/-- Combines all items, first to last. -/
@[specialize] def foldl (f : β → Item → β) (acc : β) (s : σ) : β :=
  match _h : next? s with
  | none => acc
  | some (item, s') => foldl f (f acc item) s'
termination_by left s
decreasing_by exact left_lt _h

/-- All items. -/
def toArray (s : σ) : Array Item :=
  foldl Array.push #[] s

/-- Appends the first `count` items to `out`. -/
def takeInto (s : σ) : (count : Nat) → (out : Array Item) → Array Item
  | 0, out => out
  | count + 1, out =>
    match next? s with
    | none => out
    | some (item, s') => takeInto s' count (out.push item)

/-- The first `count` items. -/
def take (s : σ) (count : Nat) : Array Item :=
  takeInto s count #[]

/-- An item at a position, and the item before it, which it does not exceed. -/
structure Descent where
  item : Item
  position : Nat
  previous : Item

/-- The first descent among `previous` and the items of a source, whose head stands at
`position`. -/
def descentFrom? (previous : Item) (position : Nat) (s : σ) : Option Descent :=
  match _h : next? s with
  | none => none
  | some (item, s') =>
    if previous < item then descentFrom? item (position + 1) s'
    else some ⟨item, position, previous⟩
termination_by left s
decreasing_by exact left_lt _h

/-- The first descent among the items of a source. -/
def descent? (s : σ) : Option Descent :=
  match next? s with
  | none => none
  | some (item, s') => descentFrom? item 1 s'

/-- Whether two sources give the same items. -/
def beq (s : σ) (t : τ) : Bool :=
  match _h : next? s, next? t with
  | none, none => true
  | some (x, s'), some (y, t') => x == y && beq s' t'
  | _, _ => false
termination_by left s
decreasing_by exact left_lt _h

end Source

/-- A list gives its members. -/
instance : Source (List Item) where
  next?
    | [] => none
    | item :: rest => some (item, rest)
  left := List.length
  left_lt {s s' item} h := by
    cases s with
    | nil => simp at h
    | cons x xs =>
      simp only [Option.some.injEq, Prod.mk.injEq] at h
      rw [← h.2]
      exact Nat.lt_succ_self _

end Postings
