/-
Building a posting list item by item.

* `Builder.push` — takes an item that exceeds all before it and refuses any other;
* `Builder.extend` — pushes a list, and keeps what came before a refused item;
* `Builder.finish` — the list held in a codec.
-/
import Postings.ItemSet.Encode

namespace Postings

/-- The items pushed so far. -/
structure Builder where
  items : Array Item := #[]

namespace Builder

/-- Whether an item may come next. -/
def accepts (builder : Builder) (item : Item) : Bool :=
  match builder.items.back? with
  | some last => last < item
  | none => true

/-- The items with one more. -/
def append (builder : Builder) (item : Item) : Builder :=
  ⟨builder.items.push item⟩

/-- Appends an item. -/
def push (builder : Builder) (item : Item) : Except Error Builder :=
  if builder.accepts item then .ok (builder.append item)
  else .error (.unsorted builder.items.size)

/-- Appends items up to the first that is refused, and answers that refusal. -/
def extend (builder : Builder) : List Item → Builder × Except Error Unit
  | [] => (builder, .ok ())
  | item :: rest =>
    if builder.accepts item then (builder.append item).extend rest
    else (builder, .error (.unsorted builder.items.size))

/-- The items held as a vector. -/
def finishVector (builder : Builder) : ItemSet :=
  ItemSet.ofAscending builder.items

/-- The items held in a codec. -/
def finish (builder : Builder) (codec : Codec) (tuning : Tuning) : Except Error ItemSet :=
  if codec = .vector then .ok builder.finishVector
  else ItemSet.encodeAscending builder.items.toList codec tuning

end Builder

end Postings
